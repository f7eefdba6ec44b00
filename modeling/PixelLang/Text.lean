/-!
# Texts

Texts are lists of characters here, so that the functions run by recursion on the data.

* `isBlank` is the `White_Space` property of Unicode; `trim` and `trimEnd` remove blanks from both
  ends of a text, or from its end.
* `fields c` cuts a text at every `c`, `lines` at every line feed, `cut c` at the first `c`;
  `after lead` takes a leading text off. None of them loses a character apart from the separators.
* Hexadecimal digits are written in upper case and read in either case. `Hex.byte` writes a byte as
  two digits, `Hex.padded` a number as at least a given number of them.
-/

set_option autoImplicit false

namespace PixelLang.Text

/-! ## Blanks -/

/-- The characters with the `White_Space` property. -/
def isBlank (c : Char) : Bool :=
  let n := c.toNat
  (9 ≤ n && n ≤ 13) || n == 0x20 || n == 0x85 || n == 0xA0 || n == 0x1680 ||
    (0x2000 ≤ n && n ≤ 0x200A) || n == 0x2028 || n == 0x2029 || n == 0x202F || n == 0x205F ||
    n == 0x3000

/-- The text without the blanks at its end. -/
def trimEnd (cs : List Char) : List Char :=
  (cs.reverse.dropWhile isBlank).reverse

/-- The text without the blanks at either end. -/
def trim (cs : List Char) : List Char :=
  trimEnd (cs.dropWhile isBlank)

/-! ## Cutting -/

/-- The parts of a text between the separators `c`: always one more than there are separators. -/
def fields (c : Char) : List Char → List (List Char)
  | [] => [[]]
  | d :: rest =>
    match fields c rest with
    | [] => [[d]]
    | part :: parts => if d = c then [] :: part :: parts else (d :: part) :: parts

/-- The lines of a text. A line feed ends a line, so none starts after the last one. -/
def lines (cs : List Char) : List (List Char) :=
  let parts := fields '\n' cs
  if parts.getLast? = some [] then parts.dropLast else parts

/-- The text before the first `c` and the text after it, where there is a `c`. -/
def cut (c : Char) : List Char → Option (List Char × List Char)
  | [] => none
  | d :: rest =>
    if d = c then some ([], rest) else (cut c rest).map fun (before, after) => (d :: before, after)

/-- What follows `lead` in a text that starts with it. -/
def after : (lead : List Char) → List Char → Option (List Char)
  | [], cs => some cs
  | _ :: _, [] => none
  | l :: lead, c :: cs => if l = c then after lead cs else none

/-! ## Hexadecimal digits -/

namespace Hex

/-- The upper-case digit of a value below sixteen. -/
def digit (n : Nat) : Char :=
  if n < 10 then Char.ofNat (48 + n) else Char.ofNat (55 + n)

/-- The value of a digit of either case. -/
def value? (c : Char) : Option Nat :=
  let n := c.toNat
  if 48 ≤ n ∧ n ≤ 57 then some (n - 48)
  else if 65 ≤ n ∧ n ≤ 70 then some (n - 55)
  else if 97 ≤ n ∧ n ≤ 102 then some (n - 87)
  else none

/-- The two digits of a byte, the high one first. -/
def byte (b : UInt8) : List Char :=
  [digit (b.toNat / 16), digit (b.toNat % 16)]

/-- The last `width` digits of a number, the highest first. -/
def padded : (width : Nat) → Nat → List Char
  | 0, _ => []
  | width + 1, n => padded width (n / 16) ++ [digit (n % 16)]

/-- A written digit reads back. -/
theorem value?_digit : ∀ n < 16, value? (digit n) = some n := by decide

end Hex

end PixelLang.Text
