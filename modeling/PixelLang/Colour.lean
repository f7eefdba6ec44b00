import PixelLang.Text

/-!
# Colours

A `Colour` has four channels of a byte. Its `hex` text is its identity everywhere else: schemes
list it, scopes are keyed by it and identifiers are made of it.

`Colour.ofHex` reads the forms `RGB`, `RGBA`, `RRGGBB` and `RRGGBBAA` with an optional `#` in
front. A text that is none of them is refused with a `HexFault` that says which part is wrong.
-/

set_option autoImplicit false

namespace PixelLang

/-- A colour with an alpha channel. -/
structure Colour where
  red : UInt8
  green : UInt8
  blue : UInt8
  alpha : UInt8
deriving DecidableEq

namespace Colour

/-- The colour with all channels full. -/
def white : Colour := ⟨255, 255, 255, 255⟩

/-- The colour with all channels empty, which pads short rows. -/
def transparent : Colour := ⟨0, 0, 0, 0⟩

/-- The solid grey of a level. -/
def grey (level : UInt8) : Colour := ⟨level, level, level, 255⟩

def isTransparent (c : Colour) : Bool := c.alpha == 0

def isSolid (c : Colour) : Bool := c.alpha == 255

/-- Equal red, green and blue make a grey, whatever the alpha. -/
def isGrey (c : Colour) : Bool := c.red == c.green && c.green == c.blue

def greyLevel? (c : Colour) : Option UInt8 :=
  if c.isGrey then some c.red else none

/-- The digits of the channels; the alpha is written only where the colour is not solid. -/
def hexDigits (c : Colour) : List Char :=
  let rgb := Text.Hex.byte c.red ++ Text.Hex.byte c.green ++ Text.Hex.byte c.blue
  if c.isSolid then rgb else rgb ++ Text.Hex.byte c.alpha

/-- The hex text of a colour. -/
def hex (c : Colour) : String := String.ofList c.hexDigits

/-- The hex text after a `#`. -/
def display (c : Colour) : String := "#" ++ c.hex

end Colour

/-! ## Reading -/

/-- Why a text is no colour. -/
inductive HexFault
  /-- The text has the wrong length, or holds a character outside ASCII. -/
  | malformed (text : String)
  /-- A character of a short form is no digit. -/
  | badDigit (c : Char)
  /-- A pair of a long form is no byte. -/
  | badByte (pair : String)
deriving DecidableEq

namespace HexFault

def message : HexFault → String
  | malformed text => "Invalid hex colour: " ++ text
  | badDigit c => "Invalid hex digit: " ++ String.ofList [c]
  | badByte pair => "Invalid hex byte: " ++ pair

def help : HexFault → Option String
  | malformed _ => some "Use #RGB, #RGBA, #RRGGBB, or #RRGGBBAA format"
  | _ => none

end HexFault

namespace Colour

/-- A channel of a short form: its one digit, doubled. -/
def readDigit (c : Char) : Except HexFault UInt8 :=
  match Text.Hex.value? c with
  | some n => .ok (UInt8.ofNat (17 * n))
  | none => .error (.badDigit c)

/-- A channel of a long form: two digits, or one digit after a plus sign. -/
def readPair (high low : Char) : Except HexFault UInt8 :=
  let value? :=
    if high = '+' then Text.Hex.value? low
    else
      match Text.Hex.value? high, Text.Hex.value? low with
      | some h, some l => some (16 * h + l)
      | _, _ => none
  match value? with
  | some n => .ok (UInt8.ofNat n)
  | none => .error (.badByte (String.ofList [high, low]))

/-- The colour whose channels the digits spell; `text` is what a fault quotes. -/
def ofDigits (text : List Char) : List Char → Except HexFault Colour
  | [r, g, b] => do
    return ⟨← readDigit r, ← readDigit g, ← readDigit b, 255⟩
  | [r, g, b, a] => do
    return ⟨← readDigit r, ← readDigit g, ← readDigit b, ← readDigit a⟩
  | [r₁, r₀, g₁, g₀, b₁, b₀] => do
    return ⟨← readPair r₁ r₀, ← readPair g₁ g₀, ← readPair b₁ b₀, 255⟩
  | [r₁, r₀, g₁, g₀, b₁, b₀, a₁, a₀] => do
    return ⟨← readPair r₁ r₀, ← readPair g₁ g₀, ← readPair b₁ b₀, ← readPair a₁ a₀⟩
  | _ => .error (.malformed (String.ofList text))

/-- The text without one leading `#`. -/
def dropHash : List Char → List Char
  | '#' :: rest => rest
  | text => text

/-- Reads a colour from its hex text; blanks around it do not matter. -/
def ofHex (s : String) : Except HexFault Colour :=
  let text := Text.trim s.toList
  let digits := dropHash text
  if digits.all (·.toNat < 128) then ofDigits text digits
  else .error (.malformed (String.ofList text))

end Colour

end PixelLang
