import PixelLang.Proofs.Validity
import PixelLang.Reader.Stack

/-!
# Stacks of readers over one list of pixels

Every reader of a stack is a part of the pixels that the first reader was given: slices are cut from
slices, and the cursor is moved at will, but none leaves its bounds.

* `Reader.PartOf`: a reader is such a part, its cursor inside it and its flag in step with its
  diagnostics. A slice of a part is a part, whatever its bounds are (`PartOf.slice`).
* `Reader.Continues`: the same reader at a later time.
* `ReaderStack.Moves`: what a step can do. It works on the reader on top, cuts a slice from it, or
  leaves it, and then at most the one below changes. Everything else follows from that
  (`moves_step`).
* `ReaderStack.stack_run`: what holds after any steps, and what any further steps keep.
-/

set_option autoImplicit false

namespace PixelLang

namespace Reader

/-! ## Parts of the pixels -/

/-- The reader is over the pixels from its origin on, for its length. -/
structure PartOf (pixels : List Pixel) (keyword : Option Keyword) (r : Reader) : Prop where
  index_le : r.index ≤ r.length
  fits : r.origin + r.length ≤ pixels.length
  pixels_eq : r.pixels = (pixels.drop r.origin).take r.length
  keyword_eq : r.keyword = keyword
  flagged : Flagged r.invalidated r.diagnostics

theorem partOf_ofPixels (pixels : List Pixel) (keyword : Option Keyword) :
    (ofPixels keyword pixels).PartOf pixels keyword where
  index_le := Reader.index_le _
  fits := Nat.le_of_eq (Nat.zero_add _)
  pixels_eq := List.take_length.symm
  keyword_eq := rfl
  flagged := rfl

/-- The bounds of a slice are put in order, so that they lie inside the reader. -/
theorem PartOf.slice {pixels : List Pixel} {keyword : Option Keyword} {r : Reader}
    (h : r.PartOf pixels keyword) (start stop : Nat) :
    (r.slice start stop).PartOf pixels keyword := by
  have hstop : min stop r.length ≤ r.length := Nat.min_le_right ..
  have hstart : min start (min stop r.length) ≤ min stop r.length := Nat.min_le_right ..
  have hlength : (r.slice start stop).length =
      min stop r.length - min start (min stop r.length) := by
    show ((r.pixels.drop _).take _).length = _
    rw [List.length_take, List.length_drop, ← length]
    omega
  have hfits := h.fits
  refine ⟨Reader.index_le _, ?_, ?_, h.keyword_eq, rfl⟩
  · rw [hlength]
    show r.origin + min start (min stop r.length) + _ ≤ _
    omega
  · rw [hlength]
    show (r.pixels.drop _).take _ = (pixels.drop (r.origin + _)).take _
    rw [h.pixels_eq, List.drop_take, List.drop_drop, List.take_take,
      Nat.min_eq_left (Nat.sub_le_sub_right hstop _)]

/-! ## The same reader later -/

/-- Only the cursor has moved and diagnostics were added at the end. -/
structure Continues (r r' : Reader) : Prop where
  pixels : r'.pixels = r.pixels
  origin : r'.origin = r.origin
  keyword : r'.keyword = r.keyword
  diagnostics : r.diagnostics <+: r'.diagnostics

theorem Continues.refl (r : Reader) : r.Continues r :=
  ⟨rfl, rfl, rfl, List.prefix_refl _⟩

theorem Continues.trans {r s t : Reader} (h : r.Continues s) (h' : s.Continues t) :
    r.Continues t where
  pixels := h'.pixels.trans h.pixels
  origin := h'.origin.trans h.origin
  keyword := h'.keyword.trans h.keyword
  diagnostics := h.diagnostics.trans h'.diagnostics

theorem Reads.continues {P : Problem → Prop} {r r' : Reader} (h : Reads P r r') :
    r.Continues r' := by
  obtain ⟨hpixels, horigin, -, hkeyword⟩ := h.frame
  obtain ⟨ds, hds, -⟩ := h.located
  exact ⟨hpixels, horigin, hkeyword, ⟨ds, hds.symm⟩⟩

theorem continues_record (r : Reader) (d : Diagnostic) : r.Continues (r.record d) :=
  ⟨rfl, rfl, rfl, List.prefix_append _ _⟩

theorem continues_absorb (r other : Reader) : r.Continues (r.absorb other) :=
  ⟨rfl, rfl, rfl, List.prefix_append _ _⟩

theorem PartOf.continues {pixels : List Pixel} {keyword : Option Keyword} {r r' : Reader}
    (h : r.PartOf pixels keyword) (hr : r.Continues r')
    (hflagged : Flagged r'.invalidated r'.diagnostics) : r'.PartOf pixels keyword := by
  have hlength : r'.length = r.length := by rw [length, length, hr.pixels]
  refine ⟨r'.index_le, ?_, ?_, hr.keyword.trans h.keyword_eq, hflagged⟩
  · rw [hr.origin, hlength]
    exact h.fits
  · rw [hr.pixels, hr.origin, hlength]
    exact h.pixels_eq

end Reader

namespace ReaderStack

open Reader

/-! ## What a step can do -/

/-- One stack comes from another by a step. -/
inductive Moves : ReaderStack → ReaderStack → Prop
  /-- The reader on top is worked on. -/
  | work {top top' : Reader} {below : List Reader} (h : top.Continues top')
      (flagged : Flagged top.invalidated top.diagnostics →
        Flagged top'.invalidated top'.diagnostics) :
      Moves ⟨top, below⟩ ⟨top', below⟩
  /-- A slice is cut from it. -/
  | cut {top : Reader} {below : List Reader} (start stop : Nat) :
      Moves ⟨top, below⟩ ⟨top.slice start stop, top :: below⟩
  /-- It is left for the reader below. -/
  | leave {top r r' : Reader} {below : List Reader} (h : r.Continues r')
      (flagged : Flagged top.invalidated top.diagnostics → Flagged r.invalidated r.diagnostics →
        Flagged r'.invalidated r'.diagnostics) :
      Moves ⟨top, r :: below⟩ ⟨r', below⟩

theorem moves_of_reads {top top' : Reader} (below : List Reader)
    (h : Reads (fun _ => True) top top') : Moves ⟨top, below⟩ ⟨top', below⟩ :=
  .work h.continues h.flagged

theorem moves_step (s : ReaderStack) (step : ReaderStep) : s.Moves (s.step step) := by
  obtain ⟨top, below⟩ := s
  cases step with
  | next =>
    refine moves_of_reads below ?_
    rcases top.next_cases with ⟨p, hp, -⟩ | hnone
    · rw [hp]
      exact reads_advance top 1
    · rw [hnone]
      exact .refl top
  | peek => exact moves_of_reads below (.refl top)
  | setIndex index => exact moves_of_reads below (.move index (.refl top))
  | skipToEnd => exact moves_of_reads below (reads_skipToEnd top)
  | nextSequence => exact moves_of_reads below (reads_nextSequence trivial top)
  | report problem target template =>
    exact .work (continues_record top _) fun _ => flagged_append_singleton _ _
  | slice start stop => exact .cut start stop
  | absorb =>
    cases below with
    | nil => exact moves_of_reads [] (.refl top)
    | cons r rest => exact .leave (continues_absorb r top) fun htop hr => hr.append htop
  | drop =>
    cases below with
    | nil => exact moves_of_reads [] (.refl top)
    | cons r rest => exact .leave (.refl r) fun _ hr => hr

/-- All readers of the stack are parts of the pixels. -/
def PartsOf (pixels : List Pixel) (keyword : Option Keyword) (s : ReaderStack) : Prop :=
  ∀ r ∈ s.top :: s.below, r.PartOf pixels keyword

theorem PartsOf.moves {pixels : List Pixel} {keyword : Option Keyword} {s t : ReaderStack}
    (hs : s.PartsOf pixels keyword) (h : s.Moves t) : t.PartsOf pixels keyword := by
  cases h with
  | work h flagged =>
    obtain ⟨htop, hbelow⟩ := List.forall_mem_cons.1 hs
    exact List.forall_mem_cons.2 ⟨htop.continues h (flagged htop.flagged), hbelow⟩
  | cut start stop =>
    obtain ⟨htop, -⟩ := List.forall_mem_cons.1 hs
    exact List.forall_mem_cons.2 ⟨htop.slice start stop, hs⟩
  | leave h flagged =>
    obtain ⟨htop, hrest⟩ := List.forall_mem_cons.1 hs
    obtain ⟨hr, hbelow⟩ := List.forall_mem_cons.1 hrest
    exact List.forall_mem_cons.2 ⟨hr.continues h (flagged htop.flagged hr.flagged), hbelow⟩

theorem PartsOf.run {pixels : List Pixel} {keyword : Option Keyword} {s : ReaderStack}
    (hs : s.PartsOf pixels keyword) (steps : List ReaderStep) :
    (s.run steps).PartsOf pixels keyword :=
  List.foldlRecOn steps step hs fun t ht st _ => ht.moves (t.moves_step st)

/-! ## Readers by their level -/

/-- The reader at a level: the first one is at level zero, the one on top at the level of the
stack. -/
def reader? (s : ReaderStack) (level : Nat) : Option Reader := (s.below.reverse ++ [s.top])[level]?

theorem reader?_level (s : ReaderStack) : s.reader? s.level = some s.top := by
  rw [reader?, level, ← List.length_reverse, List.getElem?_concat_length]

theorem reader?_of_lt {s : ReaderStack} {level : Nat} (h : level < s.level) :
    s.reader? level = s.below.reverse[level]? :=
  List.getElem?_append_left (by rwa [List.length_reverse])

/-- Below a slice, the levels are those of the stack without it. -/
theorem reader?_slice (top r : Reader) (below : List Reader) {level : Nat}
    (h : level ≤ below.length) :
    (ReaderStack.mk top (r :: below)).reader? level = (ReaderStack.mk r below).reader? level := by
  have hlt : level < (ReaderStack.mk top (r :: below)).level := Nat.lt_succ_of_le h
  rw [reader?_of_lt hlt, List.reverse_cons]
  rfl

theorem exists_reader? {s : ReaderStack} {level : Nat} (h : level ≤ s.level) :
    ∃ r, s.reader? level = some r := by
  have hlt : level < (s.below.reverse ++ [s.top]).length := by
    rw [List.length_append, List.length_reverse]
    exact Nat.lt_succ_of_le h
  exact ⟨_, List.getElem?_eq_getElem hlt⟩

/-- A step changes no reader that is below the one on top both before and after it. -/
theorem Moves.reader?_eq {s t : ReaderStack} (h : s.Moves t) {level : Nat} (hs : level < s.level)
    (ht : level < t.level) : t.reader? level = s.reader? level := by
  cases h with
  | work _ _ => rw [reader?_of_lt hs, reader?_of_lt ht]
  | cut _ _ => exact reader?_slice _ _ _ (Nat.le_of_lt hs)
  | @leave top r r' below _ _ =>
    have hr : (ReaderStack.mk r below).reader? level = _ := reader?_of_lt ht
    rw [reader?_slice top r below (Nat.le_of_lt ht), reader?_of_lt ht, hr]

/-- A reader that is there before and after a step is the same reader. -/
theorem Moves.continues {s t : ReaderStack} (h : s.Moves t) {level : Nat} (hs : level ≤ s.level)
    (ht : level ≤ t.level) :
    ∃ r r', s.reader? level = some r ∧ t.reader? level = some r' ∧ r.Continues r' := by
  by_cases hlow : level < s.level ∧ level < t.level
  · obtain ⟨r, hr⟩ := exists_reader? hs
    exact ⟨r, r, hr, (h.reader?_eq hlow.1 hlow.2).trans hr, .refl r⟩
  · -- the reader is on top of the lower of the two stacks
    cases h with
    | @work top top' below h _ =>
      obtain rfl : level = below.length :=
        Nat.le_antisymm hs (Nat.le_of_not_lt fun hlt => hlow ⟨hlt, hlt⟩)
      exact ⟨top, top', reader?_level _, reader?_level _, h⟩
    | @cut top below start stop =>
      obtain rfl : level = below.length :=
        Nat.le_antisymm hs (Nat.le_of_not_lt fun hlt => hlow ⟨hlt, Nat.lt_succ_of_lt hlt⟩)
      refine ⟨top, top, reader?_level _, ?_, .refl top⟩
      rw [reader?_slice _ _ _ (Nat.le_refl _)]
      exact reader?_level _
    | @leave top r r' below h _ =>
      obtain rfl : level = below.length :=
        Nat.le_antisymm ht (Nat.le_of_not_lt fun hlt => hlow ⟨Nat.lt_succ_of_lt hlt, hlt⟩)
      refine ⟨r, r', ?_, reader?_level _, h⟩
      rw [reader?_slice _ _ _ (Nat.le_refl _)]
      exact reader?_level _

/-! ## Runs -/

/-- The stack is never lower than the level while the steps are done. -/
def StaysAbove (s : ReaderStack) (level : Nat) (steps : List ReaderStep) : Prop :=
  ∀ front, front <+: steps → level ≤ (s.run front).level

theorem StaysAbove.level_le {s : ReaderStack} {level : Nat} {steps : List ReaderStep}
    (h : s.StaysAbove level steps) : level ≤ s.level :=
  h [] (List.nil_prefix)

theorem StaysAbove.tail {s : ReaderStack} {level : Nat} {st : ReaderStep}
    {steps : List ReaderStep} (h : s.StaysAbove level (st :: steps)) :
    (s.step st).StaysAbove level steps :=
  fun front hfront => h (st :: front) (List.cons_prefix_cons.2 ⟨rfl, hfront⟩)

theorem StaysAbove.continues {s : ReaderStack} {level : Nat} {steps : List ReaderStep}
    (h : s.StaysAbove level steps) :
    ∃ r r', s.reader? level = some r ∧ (s.run steps).reader? level = some r' ∧
      r.Continues r' := by
  induction steps generalizing s with
  | nil =>
    obtain ⟨r, hr⟩ := exists_reader? h.level_le
    exact ⟨r, r, hr, hr, .refl r⟩
  | cons st steps ih =>
    obtain ⟨r, r', hr, hr', hstep⟩ := (s.moves_step st).continues h.level_le h.tail.level_le
    obtain ⟨q, q', hq, hq', hrest⟩ := ih h.tail
    obtain rfl : r' = q := Option.some.inj (hr'.symm.trans hq)
    exact ⟨r, q', hr, hq', hstep.trans hrest⟩

theorem StaysAbove.reader?_eq {s : ReaderStack} {level : Nat} {steps : List ReaderStep}
    (h : s.StaysAbove level steps) {lower : Nat} (hlower : lower < level) :
    (s.run steps).reader? lower = s.reader? lower := by
  induction steps generalizing s with
  | nil => rfl
  | cons st steps ih =>
    have hstep := (s.moves_step st).reader?_eq (Nat.lt_of_lt_of_le hlower h.level_le)
      (Nat.lt_of_lt_of_le hlower h.tail.level_le)
    exact (ih h.tail).trans hstep

/-- When a slice is left, the reader below takes over what it reported, if it is absorbed, and
nothing else changes. -/
theorem reader?_leave {s : ReaderStack} {lower : Nat} (h : lower < s.level) :
    (s.step .drop).reader? lower = s.reader? lower ∧
      (s.step .absorb).reader? lower =
        if lower + 1 = s.level then (s.reader? lower).map (·.absorb s.top)
        else s.reader? lower := by
  obtain ⟨top, below⟩ := s
  cases below with
  | nil => exact absurd h (Nat.not_lt_zero _)
  | cons r rest =>
    have hle : lower ≤ rest.length := Nat.le_of_lt_succ h
    rw [reader?_slice top r rest hle]
    refine ⟨rfl, ?_⟩
    split
    · rename_i hlast
      obtain rfl : lower = rest.length := Nat.succ.inj hlast
      have hr : (ReaderStack.mk r rest).reader? rest.length = some r := reader?_level _
      rw [hr]
      exact reader?_level _
    · rename_i hlast
      have hlt : lower < rest.length :=
        Nat.lt_of_le_of_ne hle fun heq => hlast (congrArg (· + 1) heq)
      have hr : (ReaderStack.mk r rest).reader? lower = _ := reader?_of_lt hlt
      rw [hr]
      exact reader?_of_lt hlt

/-- **Stacks of readers.** After any steps from one reader over some pixels, all readers are parts
of the pixels. While the stack stays at a level, the reader there keeps its pixels, its numbering
and its statement and only adds diagnostics, and no reader below it changes. When a slice is
dropped no other reader changes, and when it is absorbed only the one below does. -/
theorem stack_run (pixels : List Pixel) (keyword : Option Keyword) (steps : List ReaderStep) :
    let s := (ofReader (.ofPixels keyword pixels)).run steps
    s.PartsOf pixels keyword ∧
      (∀ more level, s.StaysAbove level more →
        (∃ r r', s.reader? level = some r ∧ (s.run more).reader? level = some r' ∧
          r.Continues r') ∧
        ∀ lower, lower < level → (s.run more).reader? lower = s.reader? lower) ∧
      ∀ lower, lower < s.level →
        (s.step .drop).reader? lower = s.reader? lower ∧
          (s.step .absorb).reader? lower =
            if lower + 1 = s.level then (s.reader? lower).map (·.absorb s.top)
            else s.reader? lower := by
  intro s
  have hstart : (ofReader (.ofPixels keyword pixels)).PartsOf pixels keyword :=
    List.forall_mem_singleton.2 (partOf_ofPixels pixels keyword)
  refine ⟨hstart.run steps, fun more level h => ⟨h.continues, ?_⟩, fun _ => reader?_leave⟩
  intro lower hlower
  exact h.reader?_eq hlower

end ReaderStack

end PixelLang
