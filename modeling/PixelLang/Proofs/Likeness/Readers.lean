import PixelLang.Proofs.Likeness.Basic

/-!
# Readers alike

Two readers are alike if they stand at the same index of pixels that stand for each other and have
reported the same problems at the same tokens. Every operation of a reader keeps them alike, cutting
and absorbing slices included.
-/

set_option autoImplicit false

namespace PixelLang.Likeness

variable (L : Likeness)

structure Sequences (s s' : Sequence) : Prop where
  first : L.pixel s.first s'.first
  members : List.Forall₂ L.pixel s.members s'.members

structure Readers (r r' : Reader) : Prop where
  pixels : List.Forall₂ L.pixel r.pixels r'.pixels
  index : r.index = r'.index
  origin : r.origin = r'.origin
  anchor : L.place r.anchor r'.anchor
  keyword : r.keyword = r'.keyword
  invalidated : r.invalidated = r'.invalidated
  diagnostics : List.Forall₂ L.Diagnostics r.diagnostics r'.diagnostics

/-- A result of reading, with the reader that is left. -/
structure Results {α β : Type} (R : α → β → Prop) (x : α × Reader) (y : β × Reader) : Prop where
  value : R x.1 y.1
  reader : L.Readers x.2 y.2

variable {L} {p q : Pixel} {ps qs : List Pixel} {s s' : Scope} {r r' : Reader}

theorem Results.cases {α β : Type} {R : α → β → Prop} {x : Option α × Reader}
    {y : Option β × Reader} (h : L.Results (Option.Rel R) x y) :
    (∃ t t', x = (none, t) ∧ y = (none, t') ∧ L.Readers t t') ∨
      ∃ a b t t', x = (some a, t) ∧ y = (some b, t') ∧ R a b ∧ L.Readers t t' := by
  obtain ⟨a, t⟩ := x
  obtain ⟨b, t'⟩ := y
  obtain ⟨hn, hn'⟩ | ⟨a, b, hs, hs', hab⟩ := rel_cases h.value
  · exact .inl ⟨t, t', by rw [← hn], by rw [← hn'], h.reader⟩
  · exact .inr ⟨a, b, t, t', by rw [← hs], by rw [← hs'], hab, h.reader⟩

/-- Reading pixel by pixel. -/
theorem Results.foldl {α β : Type} {R : α → β → Prop} {f : α × Reader → Pixel → α × Reader}
    {g : β × Reader → Pixel → β × Reader}
    (hstep : ∀ x y p q, L.Results R x y → L.pixel p q → L.Results R (f x p) (g y q))
    (hpixels : List.Forall₂ L.pixel ps qs) {x : α × Reader} {y : β × Reader}
    (h : L.Results R x y) : L.Results R (ps.foldl f x) (qs.foldl g y) := by
  induction hpixels generalizing x y with
  | nil => exact h
  | cons hp _ ih => exact ih (hstep _ _ _ _ h hp)

theorem Sequences.last {n n' : Sequence} (h : L.Sequences n n') : L.pixel n.last n'.last := by
  obtain ⟨first, members⟩ := n
  obtain ⟨first', members'⟩ := n'
  rw [Sequence.last, Sequence.last, List.getLastD_eq_getLast?, List.getLastD_eq_getLast?,
    ← List.head?_reverse, ← List.head?_reverse]
  obtain ⟨hn, hn'⟩ | ⟨a, b, hs, hs', hab⟩ :=
    rel_cases (rel_head? (List.rel_reverse h.members))
  · rw [hn, hn']
    exact h.first
  · rw [hs, hs']
    exact hab

theorem dottedTail_alike : ∀ {ps qs : List Pixel}, List.Forall₂ L.pixel ps qs →
    List.Forall₂ L.pixel (dottedTail ps).members (dottedTail qs).members ∧
      (dottedTail ps).dangling = (dottedTail qs).dangling
  | _, _, .nil => ⟨.nil, rfl⟩
  | _, _, .cons hp .nil => ⟨.nil, eq_of_kind Pixel.isDot (fun _ => rfl) hp⟩
  | _, _, .cons hp (.cons hmember hrest) => by
    have ih := dottedTail_alike hrest
    rw [dottedTail, dottedTail, eq_of_kind Pixel.isDot (fun _ => rfl) hp]
    split
    · exact ⟨.cons hmember ih.1, ih.2⟩
    · exact ⟨.nil, rfl⟩

theorem length_dottedTail (h : List.Forall₂ L.pixel ps qs) :
    (dottedTail ps).length = (dottedTail qs).length := by
  obtain ⟨hmembers, hdangling⟩ := dottedTail_alike h
  rw [DottedTail.length, DottedTail.length, hmembers.length_eq, hdangling]

namespace Readers

/-! ## The cursor -/

theorem length (h : L.Readers r r') : r.length = r'.length := h.pixels.length_eq

theorem hasNext (h : L.Readers r r') : r.hasNext = r'.hasNext := by
  rw [Reader.hasNext, Reader.hasNext, h.index, h.length]

theorem peek (h : L.Readers r r') : Option.Rel L.pixel r.peek r'.peek := by
  rw [Reader.peek, Reader.peek, h.index]
  exact rel_getElem? h.pixels _

theorem remaining (h : L.Readers r r') : List.Forall₂ L.pixel r.remaining r'.remaining := by
  rw [Reader.remaining, Reader.remaining, h.index]
  exact List.forall₂_drop _ h.pixels

theorem skipToEnd (h : L.Readers r r') : L.Readers r.skipToEnd r'.skipToEnd :=
  { h with index := h.length }

theorem advance (h : L.Readers r r') (count : Nat) :
    L.Readers (r.advance count) (r'.advance count) :=
  { h with index := congrArg₂ min (congrArg (· + count) h.index) h.length }

theorem next (h : L.Readers r r') : L.Results (Option.Rel L.pixel) r.next r'.next := by
  rw [Reader.next, Reader.next]
  obtain ⟨hn, hn'⟩ | ⟨p, q, hs, hs', hp⟩ := rel_cases h.peek
  · rw [hn, hn']
    exact ⟨.none, h⟩
  · rw [hs, hs']
    exact ⟨.some hp, h.advance 1⟩

/-! ## Diagnostics -/

theorem ofPixels (keyword : Option Keyword) (h : List.Forall₂ L.pixel ps qs) :
    L.Readers (.ofPixels keyword ps) (.ofPixels keyword qs) where
  pixels := h
  index := rfl
  origin := rfl
  anchor := by
    cases h with
    | nil => exact L.place_zero
    | cons hp _ => exact L.place_pixel hp
  keyword := rfl
  invalidated := rfl
  diagnostics := .nil

theorem locate (h : L.Readers r r') {problem problem' : Problem}
    (hproblem : L.Problems problem problem') (target : Target) (template : Option Template) :
    L.Diagnostics (r.locate problem target template) (r'.locate problem' target template) := by
  have hposition : r.targetPosition target = r'.targetPosition target := by
    cases target with
    | cursor => exact congrArg (· - 1) h.index
    | first => rfl
    | index => rfl
  refine ⟨hproblem, ?_, congrArg₂ (· + ·) h.origin hposition, h.keyword, rfl⟩
  rw [Reader.locate, Reader.locate, hposition]
  obtain ⟨hn, hn'⟩ | ⟨p, q, hs, hs', hp⟩ := rel_cases (rel_getElem? h.pixels _)
  · rw [hn, hn']
    exact h.anchor
  · rw [hs, hs']
    exact L.place_pixel hp

theorem record (h : L.Readers r r') {d d' : Diagnostic} (hd : L.Diagnostics d d') :
    L.Readers (r.record d) (r'.record d') :=
  { h with
    invalidated := rfl
    diagnostics := List.rel_append h.diagnostics (.cons hd .nil) }

theorem report (h : L.Readers r r') {problem problem' : Problem}
    (hproblem : L.Problems problem problem') (target : Target) :
    L.Readers (r.report problem target) (r'.report problem' target) :=
  h.record (h.locate hproblem target none)

theorem reportIn (h : L.Readers r r') (template : Template) {problem problem' : Problem}
    (hproblem : L.Problems problem problem') (target : Target) :
    L.Readers (r.reportIn template problem target) (r'.reportIn template problem' target) :=
  h.record (h.locate hproblem target (some template))

/-! ## Names and slices -/

theorem nextSequence (h : L.Readers r r') :
    L.Results (Option.Rel L.Sequences) r.nextSequence r'.nextSequence := by
  have hrest := h.remaining
  rw [Reader.nextSequence, Reader.nextSequence]
  generalize r.remaining = ps at hrest ⊢
  generalize r'.remaining = qs at hrest ⊢
  cases hrest with
  | nil => exact ⟨.none, h⟩
  | cons hp hrest =>
    obtain ⟨hmembers, hdangling⟩ := dottedTail_alike hrest
    refine ⟨.some ⟨hp, hmembers⟩, ?_⟩
    dsimp only
    rw [hdangling, length_dottedTail hrest]
    split
    · exact (h.advance _).report (.same _) _
    · exact h.advance _

theorem sliceAnchor (h : L.Readers r r') (start : Nat) :
    L.place (r.sliceAnchor start) (r'.sliceAnchor start) := by
  have hbefore : Option.Rel L.pixel (if start = 0 then none else r.pixels[start - 1]?)
      (if start = 0 then none else r'.pixels[start - 1]?) := by
    split
    · exact .none
    · exact rel_getElem? h.pixels _
  rw [Reader.sliceAnchor, Reader.sliceAnchor]
  obtain ⟨hn, hn'⟩ | ⟨p, q, hs, hs', hp⟩ := rel_cases (rel_or hbefore (rel_getElem? h.pixels start))
  · rw [hn, hn']
    exact h.anchor
  · rw [hs, hs']
    exact L.place_pixel hp

theorem slice (h : L.Readers r r') (start stop : Nat) :
    L.Readers (r.slice start stop) (r'.slice start stop) := by
  simp only [Reader.slice, h.length]
  exact
    { pixels := List.forall₂_take _ (List.forall₂_drop _ h.pixels)
      index := rfl
      origin := congrArg (· + _) h.origin
      anchor := h.sliceAnchor _
      keyword := h.keyword
      invalidated := rfl
      diagnostics := .nil }

theorem absorb (h : L.Readers r r') {t t' : Reader} (ht : L.Readers t t') :
    L.Readers (r.absorb t) (r'.absorb t') :=
  { h with
    invalidated := congrArg₂ (· || ·) h.invalidated ht.invalidated
    diagnostics := List.rel_append h.diagnostics ht.diagnostics }

end Readers

end PixelLang.Likeness
