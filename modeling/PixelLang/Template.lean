import PixelLang.Keyword
import PixelLang.Text

/-!
# Templates

A `Template` is the form of a statement, token by token, with a mark for each token: which were
read, which one failed, which were not reached. It is shown on two lines, the marks standing under
the first characters of their tokens.
-/

set_option autoImplicit false

namespace PixelLang

inductive Mark
  | correct
  | incorrect
  | unchecked
deriving DecidableEq

def Mark.symbol : Mark → Char
  | correct => '✓'
  | incorrect => '✗'
  | unchecked => ' '

/-- Tokens with their marks. -/
structure Template where
  slots : List (String × Mark)
deriving DecidableEq

namespace Template

/-- The template of a list of tokens, none of them checked. -/
def ofTokens (tokens : List String) : Template :=
  ⟨tokens.map fun token => (token, .unchecked)⟩

/-- Marks the token at an index; an index past the tokens marks none. -/
def mark (t : Template) (index : Nat) (m : Mark) : Template :=
  ⟨t.slots.modify index fun slot => (slot.1, m)⟩

/-- Marks the tokens before an index correct and the one at it incorrect. -/
def failedAt (t : Template) (index : Nat) : Template :=
  ⟨t.slots.mapIdx fun i slot =>
    if i < index then (slot.1, .correct) else if i = index then (slot.1, .incorrect) else slot⟩

/-- The line of tokens. -/
def tokenLine (t : Template) : String := String.intercalate " " (t.slots.map (·.1))

/-- A mark, and blanks up to the width of its token. -/
def markCell (slot : String × Mark) : List Char :=
  slot.2.symbol :: List.replicate (slot.1.length - 1) ' '

/-- The line of marks, without the blanks at its end. -/
def markLine (t : Template) : String :=
  String.ofList (Text.trimEnd ([' '].intercalate (t.slots.map markCell)))

/-- Both lines as one text. -/
def display (t : Template) : String := t.tokenLine ++ "\n" ++ t.markLine

/-- The lines that are shown; an empty line of marks is not. -/
def lines (t : Template) : List String :=
  if t.markLine.isEmpty then [t.tokenLine] else [t.tokenLine, t.markLine]

end Template

/-- The unmarked template of a statement. -/
def Keyword.template (k : Keyword) : Template := .ofTokens k.tokens

end PixelLang
