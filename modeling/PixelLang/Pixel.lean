import PixelLang.Colour
import PixelLang.Keyword
import PixelLang.Operator

/-!
# Pixels

A `Pixel` is a cell of an image with the kind its colour has in a language. A `Sequence` is a run
of pixels that dots join to one name; the dots themselves are not part of it.

After the first pixel of a name, each dot takes the next pixel as a member, whatever it is.
`dottedTail` reads the dots and members at the front of a list of pixels; a last dot without a
member is left dangling.
-/

set_option autoImplicit false

namespace PixelLang

/-- What a pixel stands for. -/
inductive PixelKind
  /-- Nothing: the cell is skipped. -/
  | blank
  | boolean (value : Bool)
  | operator (op : Operator)
  | keyword (k : Keyword)
  /-- A library symbol, by its scheme key. -/
  | library (key : String)
  /-- A character, by its code. -/
  | character (code : UInt8)
  /-- A name of the program. -/
  | symbol
deriving DecidableEq

structure Pixel where
  colour : Colour
  x : Nat
  y : Nat
  kind : PixelKind
deriving DecidableEq

namespace Pixel

def isBlank (p : Pixel) : Bool := p.kind == .blank

def boolean? (p : Pixel) : Option Bool :=
  match p.kind with
  | .boolean value => some value
  | _ => none

def isBoolean (p : Pixel) : Bool := p.boolean?.isSome

def isDot (p : Pixel) : Bool := p.kind == .operator .dot

/-- The operator of a pixel that joins operands; the dot does not. -/
def operator? (p : Pixel) : Option Operator :=
  match p.kind with
  | .operator op => if op.isDot then none else some op
  | _ => none

def isOperator (p : Pixel) : Bool := p.operator?.isSome

def keyword? (p : Pixel) : Option Keyword :=
  match p.kind with
  | .keyword k => some k
  | _ => none

def isKeyword (p : Pixel) : Bool := p.keyword?.isSome

def library? (p : Pixel) : Option String :=
  match p.kind with
  | .library key => some key
  | _ => none

def isLibrary (p : Pixel) : Bool := p.library?.isSome

def character? (p : Pixel) : Option UInt8 :=
  match p.kind with
  | .character code => some code
  | _ => none

def isCharacter (p : Pixel) : Bool := p.character?.isSome

/-- The code of a decimal digit. -/
def isDigitCode (code : UInt8) : Bool := 48 ≤ code && code ≤ 57

def isDigit (p : Pixel) : Bool := p.character?.any isDigitCode

def isSymbol (p : Pixel) : Bool := p.kind == .symbol

def hex (p : Pixel) : String := p.colour.hex

/-- The identifier that stands for the pixel in generated code. -/
def identifier (p : Pixel) : String := "_" ++ p.hex

/-- A place in an image as messages quote it. -/
def placeText (x y : Nat) : String := "(" ++ toString x ++ ", " ++ toString y ++ ")"

/-- The colour and the place of a pixel as messages quote them. -/
def display (p : Pixel) : String := p.colour.display ++ " at " ++ placeText p.x p.y

end Pixel

/-- A dotted name: its first pixel and the members after it. -/
structure Sequence where
  first : Pixel
  members : List Pixel
deriving DecidableEq

namespace Sequence

def pixels (s : Sequence) : List Pixel := s.first :: s.members

def last (s : Sequence) : Pixel := s.members.getLastD s.first

/-- There is a member after the first pixel. -/
def isNested (s : Sequence) : Bool := !s.members.isEmpty

def length (s : Sequence) : Nat := s.members.length + 1

end Sequence

/-! ## Dotted runs -/

/-- The members that dots join on to a name. -/
structure DottedTail where
  members : List Pixel
  /-- The run ends with a dot that no pixel follows. -/
  dangling : Bool

/-- The number of pixels of the run, the dots included. -/
def DottedTail.length (t : DottedTail) : Nat :=
  2 * t.members.length + if t.dangling then 1 else 0

/-- The dotted run at the front of a list of pixels. -/
def dottedTail : List Pixel → DottedTail
  | [] => ⟨[], false⟩
  | [p] => ⟨[], p.isDot⟩
  | p :: member :: rest =>
    if p.isDot then
      let tail := dottedTail rest
      ⟨member :: tail.members, tail.dangling⟩
    else ⟨[], false⟩

/-- A dotted run stays inside the pixels it is read from. -/
theorem dottedTail_length_le (pixels : List Pixel) :
    (dottedTail pixels).length ≤ pixels.length := by
  fun_induction dottedTail pixels with
  | case1 => simp [DottedTail.length]
  | case2 p => cases h : p.isDot <;> simp [DottedTail.length]
  | case3 p member rest _ tail ih =>
    change tail.length ≤ rest.length at ih
    simp only [DottedTail.length, List.length_cons] at ih ⊢
    omega
  | case4 => simp [DottedTail.length]

end PixelLang
