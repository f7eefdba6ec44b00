import PixelLang.Scheme.Basic

/-!
# Scheme files

A scheme is written one entry a line, as `key=colour,colour`. Empty lines and lines that start
with `#` are skipped; the last entry of a key counts. The first line that is wrong refuses the
whole text.
-/

set_option autoImplicit false

namespace PixelLang

/-- What is wrong with a line of a scheme file. -/
inductive LineFault
  /-- There is no `=`. -/
  | noEquals (line : String)
  | emptyKey
  /-- A colour of the value cannot be read. -/
  | badColour (key value : String) (fault : HexFault)
  | noColours (key : String)
deriving DecidableEq

def LineFault.message : LineFault → String
  | noEquals line => "expected key=colour, got '" ++ line ++ "'"
  | emptyKey => "empty scheme key"
  | badColour key value fault => key ++ " = " ++ value ++ ": Parse error: " ++ fault.message
  | noColours key => "no colours for " ++ key

/-- The fault of a numbered line. -/
structure SchemeFault where
  line : Nat
  fault : LineFault
deriving DecidableEq

namespace SchemeFault

def message (f : SchemeFault) : String :=
  "Line " ++ toString f.line ++ ": " ++ f.fault.message

def help (f : SchemeFault) : Option String :=
  match f.fault with
  | .noEquals _ => some "Scheme entries look like print=FF0066"
  | .badColour .. => some "Use comma-separated hex colours, e.g. FF0000,#00FF00"
  | .emptyKey | .noColours _ => none

end SchemeFault

namespace Scheme

/-- Reads one trimmed line that is neither empty nor a comment. -/
def parseEntry (line : List Char) : Except LineFault (String × Swatch) :=
  match Text.cut '=' line with
  | none => .error (.noEquals (String.ofList line))
  | some (before, value) =>
    let key := String.ofList (Text.trim before)
    if key.isEmpty then .error .emptyKey
    else
      match Swatch.parse value with
      | .error fault => .error (.badColour key (String.ofList (Text.trim value)) fault)
      | .ok swatch => if swatch.isEmpty then .error (.noColours key) else .ok (key, swatch)

/-- A line that holds no entry: empty but for blanks, or a comment. -/
def skipsLine (line : List Char) : Bool :=
  match Text.trim line with
  | [] => true
  | c :: _ => c == '#'

/-- Reads lines into a scheme; the first of them has the number `number`. -/
def parseLines (s : Scheme) : (number : Nat) → List (List Char) → Except SchemeFault Scheme
  | _, [] => .ok s
  | number, line :: rest =>
    if skipsLine line then parseLines s (number + 1) rest
    else
      match parseEntry (Text.trim line) with
      | .error fault => .error ⟨number, fault⟩
      | .ok (key, swatch) => parseLines (s.set key swatch) (number + 1) rest

/-- Reads the text of a scheme file, and nothing else. -/
def parse (source : String) : Except SchemeFault Scheme :=
  parseLines empty 1 (Text.lines source.toList)

/-- Reads the text of a scheme file; the standard scheme gives the entries it leaves out. -/
def ofSource (source : String) : Except SchemeFault Scheme :=
  match parse source with
  | .ok scheme => .ok (scheme.fill standard)
  | .error fault => .error fault

end Scheme

end PixelLang
