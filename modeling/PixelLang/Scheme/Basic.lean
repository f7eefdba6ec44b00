import PixelLang.Colour
import PixelLang.Keyword
import PixelLang.Operator

/-!
# Colour schemes

A `Swatch` is the set of colours that a scheme gives to one name. It keeps the hex text of each
colour once, in the order of first mention.

A `Scheme` maps keys to swatches, in the order of the keys. Some keys are fixed by the language
(blank cells, booleans, operators, keywords); every other key names a library symbol. The standard
scheme has the colours every language starts from: one for each fixed key and for each function of
the standard library.
-/

set_option autoImplicit false

namespace PixelLang

structure Swatch where
  hexes : List String
deriving DecidableEq

namespace Swatch

/-- Adds a colour, unless it is there. -/
def insert (s : Swatch) (c : Colour) : Swatch :=
  if s.hexes.contains c.hex then s else ⟨s.hexes ++ [c.hex]⟩

def ofColours (colours : List Colour) : Swatch := colours.foldl insert ⟨[]⟩

/-- Reads colours separated by commas; empty parts are skipped. -/
def parse (text : List Char) : Except HexFault Swatch := do
  let parts := ((Text.fields ',' text).map Text.trim).filter (!·.isEmpty)
  let colours ← parts.mapM fun part => Colour.ofHex (String.ofList part)
  return ofColours colours

/-- The colour is one of the swatch. -/
def holds (s : Swatch) (c : Colour) : Bool := s.hexes.contains c.hex

/-- The colour of the first mention. -/
def first? (s : Swatch) : Option Colour :=
  s.hexes.head?.bind fun hex => (Colour.ofHex hex).toOption

def isEmpty (s : Swatch) : Bool := s.hexes.isEmpty

end Swatch

/-! ## Schemes -/

structure Scheme where
  entries : List (String × Swatch)
  /-- The keys are strictly increasing, so that a key has one entry. -/
  ordered : entries.Pairwise fun a b => a.1 < b.1

namespace Scheme

def empty : Scheme := ⟨[], .nil⟩

def size (s : Scheme) : Nat := s.entries.length

def isEmpty (s : Scheme) : Bool := s.entries.isEmpty

def get? (s : Scheme) (key : String) : Option Swatch := s.entries.lookup key

theorem lookup_of_mem {entries : List (String × Swatch)} {key : String} {swatch : Swatch}
    (ordered : entries.Pairwise fun a b => a.1 < b.1) (h : (key, swatch) ∈ entries) :
    entries.lookup key = some swatch := by
  induction entries with
  | nil => simp at h
  | cons first rest ih =>
    obtain ⟨hfirst, hrest⟩ := List.pairwise_cons.1 ordered
    rcases List.mem_cons.1 h with rfl | hmem
    · simp
    · have hne : key ≠ first.1 := by
        intro heq
        exact String.lt_irrefl first.1 (heq ▸ hfirst (key, swatch) hmem)
      rw [List.lookup_cons, beq_false_of_ne hne]
      exact ih hrest hmem

/-- The entries are what the keys are looked up as. -/
theorem mem_entries_iff {s : Scheme} {key : String} {swatch : Swatch} :
    (key, swatch) ∈ s.entries ↔ s.get? key = some swatch := by
  refine ⟨lookup_of_mem s.ordered, fun hget => ?_⟩
  obtain ⟨before, after, hentries, -⟩ := List.lookup_eq_some_iff.1 hget
  rw [hentries]
  exact List.mem_append_right _ (.head _)

/-- Puts an entry at its place in the order, or in place of the entry of the same key. -/
def insertEntry (key : String) (swatch : Swatch) : List (String × Swatch) → List (String × Swatch)
  | [] => [(key, swatch)]
  | (k, s) :: rest =>
    if key = k then (key, swatch) :: rest
    else if key < k then (key, swatch) :: (k, s) :: rest
    else (k, s) :: insertEntry key swatch rest

theorem mem_insertEntry {key : String} {swatch : Swatch} {entries : List (String × Swatch)}
    {entry : String × Swatch} (h : entry ∈ insertEntry key swatch entries) :
    entry = (key, swatch) ∨ entry ∈ entries := by
  induction entries with
  | nil => exact .inl (List.mem_singleton.1 h)
  | cons first rest ih =>
    rw [insertEntry] at h
    split at h
    · rcases List.mem_cons.1 h with h | h
      · exact .inl h
      · exact .inr (.tail _ h)
    · split at h
      · exact List.mem_cons.1 h
      · rcases List.mem_cons.1 h with h | h
        · exact .inr (h ▸ .head _)
        · exact (ih h).imp id (.tail _)

theorem pairwise_insertEntry (key : String) (swatch : Swatch) {entries : List (String × Swatch)}
    (h : entries.Pairwise fun a b => a.1 < b.1) :
    (insertEntry key swatch entries).Pairwise fun a b => a.1 < b.1 := by
  induction entries with
  | nil => simp [insertEntry]
  | cons first rest ih =>
    obtain ⟨hfirst, hrest⟩ := List.pairwise_cons.1 h
    rw [insertEntry]
    split
    · rename_i heq
      exact List.pairwise_cons.2 ⟨fun entry hentry => heq ▸ hfirst entry hentry, hrest⟩
    · split
      · rename_i hlt
        refine List.pairwise_cons.2 ⟨fun entry hentry => ?_, h⟩
        rcases List.mem_cons.1 hentry with rfl | hentry
        · exact hlt
        · exact String.lt_trans hlt (hfirst entry hentry)
      · -- the key comes after the first one
        rename_i hne hnlt
        refine List.pairwise_cons.2 ⟨fun entry hentry => ?_, ih hrest⟩
        rcases mem_insertEntry hentry with rfl | hentry
        · apply Decidable.byContradiction
          intro hle
          exact hne (String.le_antisymm (String.not_lt.1 hle) (String.not_lt.1 hnlt))
        · exact hfirst entry hentry

def set (s : Scheme) (key : String) (swatch : Swatch) : Scheme :=
  ⟨insertEntry key swatch s.entries, pairwise_insertEntry key swatch s.ordered⟩

/-- The swatch of the key holds the colour. -/
def paints (s : Scheme) (key : String) (c : Colour) : Bool :=
  match s.get? key with
  | some swatch => swatch.holds c
  | none => false

/-- Adds an entry for a key that has none. -/
def setMissing (s : Scheme) (key : String) (swatch : Swatch) : Scheme :=
  match s.get? key with
  | some _ => s
  | none => s.set key swatch

/-- Takes from another scheme the entries whose keys are missing. -/
def fill (s other : Scheme) : Scheme :=
  other.entries.foldl (fun s entry => s.setMissing entry.1 entry.2) s

theorem lookup_insertEntry (key k : String) (swatch : Swatch) (entries : List (String × Swatch)) :
    (insertEntry key swatch entries).lookup k =
      if k = key then some swatch else entries.lookup k := by
  induction entries with
  | nil => grind [insertEntry]
  | cons entry rest ih => grind [insertEntry]

theorem get?_set (s : Scheme) (key k : String) (swatch : Swatch) :
    (s.set key swatch).get? k = if k = key then some swatch else s.get? k :=
  lookup_insertEntry key k swatch s.entries

theorem get?_setMissing (s : Scheme) (key k : String) (swatch : Swatch) :
    (s.setMissing key swatch).get? k =
      (s.get? k).or (if k = key then some swatch else none) := by
  rcases h : s.get? key with _ | old <;> by_cases hk : k = key <;>
    simp_all [setMissing, get?_set]

/-- A scheme that is filled keeps its own swatches. -/
theorem get?_fill (s other : Scheme) (k : String) :
    (s.fill other).get? k = (s.get? k).or (other.get? k) := by
  obtain ⟨entries, ordered⟩ := other
  unfold fill
  induction entries generalizing s with
  | nil => simp [get?]
  | cons entry rest ih =>
    rw [List.foldl_cons, ih _ (List.pairwise_cons.1 ordered).2, get?_setMissing]
    grind [get?]

/-- The entries whose keys start with `space` and a point, by the rest of the key. -/
def subsection (s : Scheme) (space : String) : List (String × Swatch) :=
  s.entries.filterMap fun (key, swatch) =>
    (Text.after (space ++ ".").toList key.toList).map fun name => (String.ofList name, swatch)

/-- The key of the cells that carry no token. -/
def blankKey : String := "whitespace"

/-- The key of a truth value. -/
def boolKey : Bool → String
  | true => "bool.true"
  | false => "bool.false"

/-- The keys that the language itself gives a meaning to. -/
def isFixedKey (key : String) : Bool :=
  key == blankKey || key == boolKey true || key == boolKey false ||
    Operator.all.any (·.key == key) || Keyword.all.any (·.key == key)

/-- The entries that name library symbols. -/
def librarySymbols (s : Scheme) : List (String × Swatch) :=
  s.entries.filter fun entry => !isFixedKey entry.1

/-! ## The standard scheme -/

/-- The solid colour of a number written as `0xRRGGBB`. -/
def solid (rgb : Nat) : Colour :=
  ⟨UInt8.ofNat (rgb / 65536), UInt8.ofNat (rgb / 256), UInt8.ofNat rgb, 255⟩

def standardColours : List (String × Nat) :=
  [("whitespace", 0xFFFFFF),
    ("variable.set", 0x9900FF), ("function.call", 0x33CC33), ("if", 0xFFFF00),
    ("else", 0xFF9900), ("foreach", 0x00FF00), ("while", 0x009900), ("return", 0xFF00FF),
    ("lambda.open", 0x0099FF), ("lambda.close", 0x0066CC), ("print", 0xFF0066),
    ("struct", 0x996633),
    ("bool.true", 0x66FF66), ("bool.false", 0xFF6666),
    ("op.dot", 0x6666CC), ("op.plus", 0xFF3300), ("op.minus", 0xCC3300), ("op.times", 0x993300),
    ("op.divide", 0x663300), ("op.modulo", 0x330000), ("op.equality", 0x0000FF),
    ("op.inequality", 0x0000CC), ("op.greater", 0x000099), ("op.greater_or_equal", 0x000066),
    ("op.less", 0x3333FF), ("op.less_or_equal", 0x3333CC), ("op.and", 0x99CCFF),
    ("op.or", 0x6699CC),
    ("stdlib.listOf", 0xCC99FF), ("stdlib.sqrt", 0xCC66FF), ("stdlib.random", 0xCC33FF),
    ("stdlib.readLine", 0xCC00FF), ("stdlib.size", 0x9966FF)]

def standard : Scheme :=
  standardColours.foldl (fun s (key, rgb) => s.set key (Swatch.ofColours [solid rgb])) empty

end Scheme

end PixelLang
