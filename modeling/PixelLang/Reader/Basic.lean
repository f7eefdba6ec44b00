import PixelLang.Diagnostic
import PixelLang.Pixel

/-!
# Readers

A `Reader` is a cursor over the pixels of a statement, or over a slice of them, that records
diagnostics. A slice numbers its pixels from its `origin`, so that its diagnostics keep the token
numbers of the whole statement; the reader it was cut from absorbs them.
-/

set_option autoImplicit false

namespace PixelLang

structure Reader where
  pixels : List Pixel
  /-- The number of pixels read. -/
  index : Nat
  index_le : index ≤ pixels.length
  /-- The number of the first pixel in the statement. -/
  origin : Nat
  /-- The place of a diagnostic that points at no pixel. -/
  anchor : Nat × Nat
  keyword : Option Keyword
  /-- A diagnostic was recorded. -/
  invalidated : Bool
  diagnostics : List Diagnostic
deriving DecidableEq

/-- The pixel a diagnostic points at. -/
inductive Target
  /-- The pixel read last. -/
  | cursor
  | first
  | index (n : Nat)
deriving DecidableEq

namespace Reader

/-- The place of the first of some pixels. -/
def firstPlace (pixels : List Pixel) : Nat × Nat :=
  match pixels with
  | [] => (0, 0)
  | p :: _ => (p.x, p.y)

/-- The reader at the start of the pixels of a statement. -/
def ofPixels (keyword : Option Keyword) (pixels : List Pixel) : Reader where
  pixels := pixels
  index := 0
  index_le := Nat.zero_le _
  origin := 0
  anchor := firstPlace pixels
  keyword := keyword
  invalidated := false
  diagnostics := []

/-! ## The cursor -/

def length (r : Reader) : Nat := r.pixels.length

def hasNext (r : Reader) : Bool := r.index < r.length

def peek (r : Reader) : Option Pixel := r.pixels[r.index]?

/-- The pixels that are not read yet. -/
def remaining (r : Reader) : List Pixel := r.pixels.drop r.index

/-- Moves the cursor, at most to the end. -/
def setIndex (r : Reader) (index : Nat) : Reader :=
  { r with index := min index r.length, index_le := Nat.min_le_right .. }

def skipToEnd (r : Reader) : Reader := { r with index := r.length, index_le := Nat.le_refl _ }

/-- Moves the cursor over a number of pixels, at most to the end. -/
def advance (r : Reader) (count : Nat) : Reader := r.setIndex (r.index + count)

theorem index_advance {r : Reader} {count : Nat} (h : r.index + count ≤ r.length) :
    (r.advance count).index = r.index + count := Nat.min_eq_left h

/-- Reads the next pixel, if there is one. -/
def next (r : Reader) : Option Pixel × Reader :=
  match r.peek with
  | some p => (some p, r.advance 1)
  | none => (none, r)

/-! ## Diagnostics -/

def targetPosition (r : Reader) : Target → Nat
  | .first => 0
  | .cursor => r.index - 1
  | .index n => n

/-- The diagnostic of a problem at a target; outside the pixels it is placed at the anchor. -/
def locate (r : Reader) (problem : Problem) (target : Target) (template : Option Template) :
    Diagnostic :=
  let position := r.targetPosition target
  let (x, y) :=
    match r.pixels[position]? with
    | some p => (p.x, p.y)
    | none => r.anchor
  ⟨problem, x, y, r.origin + position, r.keyword, template⟩

def record (r : Reader) (d : Diagnostic) : Reader :=
  { r with invalidated := true, diagnostics := r.diagnostics ++ [d] }

/-- Records a problem. -/
def report (r : Reader) (problem : Problem) (target : Target) : Reader :=
  r.record (r.locate problem target none)

/-- Records a problem and shows where it is in a template. -/
def reportIn (r : Reader) (template : Template) (problem : Problem) (target : Target) : Reader :=
  r.record (r.locate problem target (some template))

/-! ## Names -/

/-- Reads a dotted name. -/
def nextSequence (r : Reader) : Option Sequence × Reader :=
  match r.remaining with
  | [] => (none, r)
  | first :: rest =>
    let tail := dottedTail rest
    let r := r.advance (1 + tail.length)
    (some ⟨first, tail.members⟩, if tail.dangling then r.report .missingMember .cursor else r)

/-! ## Slices -/

/-- The anchor of a slice: the pixel before it, else its first pixel, else the reader's own. -/
def sliceAnchor (r : Reader) (start : Nat) : Nat × Nat :=
  let before? := if start = 0 then none else r.pixels[start - 1]?
  match before?.or r.pixels[start]? with
  | some p => (p.x, p.y)
  | none => r.anchor

/-- The reader of the pixels from `start` up to `stop`; bounds past the end count as the end. -/
def slice (r : Reader) (start stop : Nat) : Reader :=
  let stop := min stop r.length
  let start := min start stop
  { pixels := (r.pixels.drop start).take (stop - start)
    index := 0
    index_le := Nat.zero_le _
    origin := r.origin + start
    anchor := r.sliceAnchor start
    keyword := r.keyword
    invalidated := false
    diagnostics := [] }

theorem pixels_slice (r : Reader) {start stop : Nat} (h : start ≤ stop) :
    (r.slice start stop).pixels = (r.pixels.drop start).take (stop - start) := by
  simp only [slice, length]
  rcases Nat.le_total stop r.pixels.length with hs | hs
  · rw [Nat.min_eq_left hs, Nat.min_eq_left h]
  · rw [Nat.min_eq_right hs]
    rcases Nat.le_total start r.pixels.length with ht | ht
    · rw [Nat.min_eq_left ht, List.take_of_length_le (by simp),
        List.take_of_length_le (by simp; omega)]
    · simp [Nat.min_eq_right ht, List.drop_of_length_le ht]

/-- Takes over the diagnostics of a slice. -/
def absorb (r other : Reader) : Reader :=
  { r with
    invalidated := r.invalidated || other.invalidated
    diagnostics := r.diagnostics ++ other.diagnostics }

end Reader

end PixelLang
