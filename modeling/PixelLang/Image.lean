import PixelLang.Colour

/-!
# Images

An `Image` is a rectangle of colours, stored row by row. Sizes and cell indices are 32-bit words,
so they wrap around at `2 ^ 32`; for every image below that size an index is `y * width + x`.
-/

set_option autoImplicit false

namespace PixelLang

structure Image where
  width : Nat
  height : Nat
  /-- The cells, row by row. -/
  cells : List Colour
deriving DecidableEq

namespace Image

/-- A number as a 32-bit word. -/
def word (n : Nat) : Nat := n % UInt32.size

/-- The image of one colour. -/
def filled (width height : Nat) (c : Colour) : Image :=
  ⟨width, height, List.replicate (word (width * height)) c⟩

/-- The row cut to a width, or with transparent cells added up to it. -/
def fitRow (width : Nat) (row : List Colour) : List Colour :=
  row.take width ++ List.replicate (width - row.length) .transparent

/-- The length of the longest row. -/
def longest (rows : List (List Colour)) : Nat := (rows.map List.length).foldl max 0

/-- The image of a list of rows, as wide as the longest. -/
def ofRows (rows : List (List Colour)) : Image :=
  let width := word (longest rows)
  ⟨width, word rows.length, rows.flatMap (fitRow width)⟩

/-- The place of a cell in the list of cells. -/
def index (img : Image) (x y : Nat) : Nat := word (y * img.width + x)

/-- The place lies inside the rectangle. -/
def contains (img : Image) (x y : Nat) : Bool := x < img.width && y < img.height

def get? (img : Image) (x y : Nat) : Option Colour :=
  if img.contains x y then img.cells[img.index x y]? else none

/-- Changes a cell; a place outside the rectangle changes nothing. -/
def set (img : Image) (x y : Nat) (c : Colour) : Image :=
  if img.contains x y then { img with cells := img.cells.set (img.index x y) c } else img

/-- The colours with their places, row by row. -/
def places (img : Image) : List (Nat × Nat × Colour) :=
  let width := max img.width 1
  img.cells.mapIdx fun i c => (word i % width, word i / width, c)

end Image

end PixelLang
