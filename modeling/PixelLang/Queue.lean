import PixelLang.Reader.Basic

/-!
# Partitions and the statement queue

The pixels of an image are cut before every keyword. Each `Partition` is then one statement,
except for the pixels before the first keyword, which belong to none.

An `Entry` is a statement to be evaluated. A bare keyword that chains is not an entry of its own
where the same keyword follows: the entry of the last one counts how often it is repeated.
-/

set_option autoImplicit false

namespace PixelLang

/-- A non-empty stretch of pixels. -/
structure Partition where
  head : Pixel
  tail : List Pixel
deriving DecidableEq

namespace Partition

def pixels (p : Partition) : List Pixel := p.head :: p.tail

/-- The keyword of the statement; none where the pixels belong to no statement. -/
def keyword? (p : Partition) : Option Keyword := p.head.keyword?

/-- The keyword stands alone. -/
def isBare (p : Partition) : Bool := p.tail.isEmpty

def reader (p : Partition) : Reader := .ofPixels p.keyword? p.pixels

end Partition

/-- Cuts pixels before every keyword. -/
def subdivide : List Pixel → List Partition
  | [] => []
  | p :: rest =>
    match subdivide rest with
    | [] => [⟨p, []⟩]
    | part :: parts =>
      if part.head.isKeyword then ⟨p, []⟩ :: part :: parts else ⟨p, part.pixels⟩ :: parts

/-- Cutting loses no pixel and keeps their order. -/
theorem flatMap_pixels_subdivide (pixels : List Pixel) :
    (subdivide pixels).flatMap Partition.pixels = pixels := by
  induction pixels with
  | nil => rfl
  | cons p rest ih =>
    rw [subdivide]
    rcases h : subdivide rest with _ | ⟨part, parts⟩ <;> rw [h] at ih
    · simp [Partition.pixels, ← ih]
    · by_cases hk : part.head.isKeyword <;> simp [Partition.pixels, hk, ← ih]

/-! ## The queue -/

structure Entry where
  keyword : Keyword
  /-- All pixels of the statement, the keyword first. -/
  partition : Partition
  /-- How often the keyword is repeated. -/
  chain : Nat
deriving DecidableEq

/-- The reader of the statement. -/
def Entry.reader (e : Entry) : Reader := e.partition.reader

/-- The partition is a bare keyword `k` that the next statement repeats. -/
def chainsOn (k : Keyword) (p : Partition) (rest : List Partition) : Bool :=
  k.traits.chains && p.isBare && (rest.head?.bind Partition.keyword?) == some k

/-- The entries of partitions; `chain` counts the repetitions before the first of them. -/
def enqueueFrom : (chain : Nat) → List Partition → List Entry
  | _, [] => []
  | chain, p :: rest =>
    match p.keyword? with
    | none => enqueueFrom chain rest
    | some k =>
      if chainsOn k p rest then enqueueFrom (chain + 1) rest
      else ⟨k, p, chain + 1⟩ :: enqueueFrom 0 rest

/-- The queue of partitions. -/
def enqueue (ps : List Partition) : List Entry := enqueueFrom 0 ps

/-- The diagnostic of pixels that belong to no statement. -/
def Partition.orphanReader (p : Partition) : Reader :=
  p.reader.report (.orphans p.pixels.length) .first

/-- The readers of the partitions that belong to no statement, with their diagnostics. -/
def orphanReaders (ps : List Partition) : List Reader :=
  (ps.filter (·.keyword?.isNone)).map Partition.orphanReader

end PixelLang
