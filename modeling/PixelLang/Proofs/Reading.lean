import PixelLang.Expression.Read

/-!
# What reading does to a reader

`Reader.Reads P r r'`: reading takes `r` to `r'`. Every problem is of `P` and is reported at a pixel
of the reader, and what a slice reports was read in the same way. So no report falls back on the
anchor. The parts:

* `Reads.frame`: reading changes the cursor and what was reported, nothing else.
* `Reads.located`: each new diagnostic stands at the pixel that its token number names
  (`Reader.Holds`), also when it comes from a slice of a slice.
* `reads_evalAs`: an expression is read so, in any shape (`reads_evalSlice`: slices of any depth).
-/

set_option autoImplicit false

namespace PixelLang

/-- The problems that reading an expression can report. -/
def Problem.OfExpression : Problem → Prop
  | missingMember | leftOver _ | notInNumber _ | notBoolean _ | unresolved _ | notFunction _
  | notStruct _ | missingOperand _ | wrongArity .. => True
  | _ => False

namespace Reader

/-- The diagnostic is one of the reader's statement, and its place is that of the pixel with its
token number. -/
def Holds (r : Reader) (d : Diagnostic) : Prop :=
  d.keyword = r.keyword ∧
    ∃ i p, r.pixels[i]? = some p ∧ d.tokenIndex = r.origin + i ∧ (d.x, d.y) = (p.x, p.y)

/-- Reading from `r` leads to `r'` (module doc). -/
inductive Reads (P : Problem → Prop) : Reader → Reader → Prop
  | refl (r : Reader) : Reads P r r
  | move {r r' : Reader} (index : Nat) : Reads P r r' → Reads P r (r'.setIndex index)
  | record {r r' : Reader} {problem : Problem} {target : Target} (template : Option Template) :
      Reads P r r' → P problem → r'.targetPosition target < r'.length →
      Reads P r (r'.record (r'.locate problem target template))
  | absorb {r r' s : Reader} {start stop : Nat} :
      Reads P r r' → Reads P (r'.slice start stop) s → Reads P r (r'.absorb s)

/-! ## What a reading keeps -/

section
variable {P Q : Problem → Prop} {r r' s : Reader}

/-- Reading keeps the pixels, their numbering, the anchor and the statement. -/
theorem Reads.frame (h : Reads P r r') :
    r'.pixels = r.pixels ∧ r'.origin = r.origin ∧ r'.anchor = r.anchor ∧
      r'.keyword = r.keyword := by
  induction h with
  | refl r => exact ⟨rfl, rfl, rfl, rfl⟩
  | move _ _ ih => exact ih
  | record _ _ _ _ ih => exact ih
  | absorb _ _ ih _ => exact ih

theorem Reads.length_eq (h : Reads P r r') : r'.length = r.length := by
  rw [length, length, h.frame.1]

theorem Reads.trans (h : Reads P r r') (h' : Reads P r' s) : Reads P r s := by
  induction h' with
  | refl _ => exact h
  | move index _ ih => exact .move index (ih h)
  | record template _ hp ht ih => exact .record template (ih h) hp ht
  | absorb _ hs ih _ => exact .absorb (ih h) hs

theorem Reads.mono (h : Reads P r r') (hPQ : ∀ p, P p → Q p) : Reads Q r r' := by
  induction h with
  | refl r => exact .refl r
  | move index _ ih => exact .move index ih
  | record template _ hp ht ih => exact .record template ih (hPQ _ hp) ht
  | absorb _ _ ih ihs => exact .absorb ih ihs

/-- A diagnostic at a target inside the reader stands at the pixel there: the anchor is not
used. -/
theorem holds_locate {target : Target} (problem : Problem) (template : Option Template)
    (h : r.targetPosition target < r.length) :
    r.Holds (r.locate problem target template) := by
  have hp := List.getElem?_eq_getElem h
  exact ⟨rfl, _, _, hp, rfl, by simp [locate, hp]⟩

/-- A diagnostic of a slice is one of the reader: the slice numbers its pixels as the reader
does. -/
theorem holds_of_slice {start stop : Nat} {d : Diagnostic} (h : (r.slice start stop).Holds d) :
    r.Holds d := by
  obtain ⟨hk, i, p, hp, ht, hxy⟩ := h
  refine ⟨hk, min start (min stop r.length) + i, p, ?_, ?_, hxy⟩
  · rw [slice] at hp
    have hi : i < min stop r.length - min start (min stop r.length) :=
      Nat.lt_of_lt_of_le (List.getElem?_eq_some_iff.1 hp).1 (List.length_take_le ..)
    rwa [List.getElem?_take_of_lt hi, List.getElem?_drop] at hp
  · rw [ht, slice, Nat.add_assoc]

theorem Reads.holds_iff (h : Reads P r r') {d : Diagnostic} : r'.Holds d ↔ r.Holds d := by
  obtain ⟨hp, ho, -, hk⟩ := h.frame
  simp only [Holds, hp, ho, hk]

/-- Reading only adds diagnostics, each of a problem of `P` and each at the pixel it names. -/
theorem Reads.located (h : Reads P r r') :
    ∃ ds, r'.diagnostics = r.diagnostics ++ ds ∧ ∀ d ∈ ds, P d.problem ∧ r.Holds d := by
  induction h with
  | refl r => exact ⟨[], by simp, by simp⟩
  | move _ _ ih => exact ih
  | @record r r' problem target template h hp ht ih =>
    obtain ⟨ds, he, hds⟩ := ih
    refine ⟨ds ++ [r'.locate problem target template], by simp [Reader.record, he], ?_⟩
    intro d hd
    rcases List.mem_append.1 hd with hd | hd
    · exact hds d hd
    · rw [List.mem_singleton.1 hd]
      exact ⟨hp, h.holds_iff.1 (holds_locate problem template ht)⟩
  | @absorb r r' s start stop h hs ih ihs =>
    obtain ⟨ds, he, hds⟩ := ih
    obtain ⟨ds', he', hds'⟩ := ihs
    have hs' : s.diagnostics = ds' := by rw [he']; rfl
    refine ⟨ds ++ ds', by simp [Reader.absorb, he, hs'], ?_⟩
    intro d hd
    rcases List.mem_append.1 hd with hd | hd
    · exact hds d hd
    · exact ⟨(hds' d hd).1, h.holds_iff.1 (holds_of_slice (hds' d hd).2)⟩

end

/-! ## Single steps of reading -/

section
variable {P : Problem → Prop} {r : Reader}

theorem length_remaining (r : Reader) : r.remaining.length = r.length - r.index := by
  simp [remaining, length]

theorem peek_eq_some {p : Pixel} (h : r.peek = some p) : r.index < r.length :=
  (List.getElem?_eq_some_iff.1 h).1

/-- The pixel read last is inside a reader that has pixels. -/
theorem cursor_lt (h : 0 < r.length) : r.targetPosition .cursor < r.length := by
  have hindex : r.index ≤ r.length := r.index_le
  show r.index - 1 < r.length
  omega

theorem skipToEnd_eq (r : Reader) : r.skipToEnd = r.setIndex r.length := by
  simp [skipToEnd, setIndex]

theorem reads_skipToEnd (r : Reader) : Reads P r r.skipToEnd :=
  skipToEnd_eq r ▸ .move r.length (.refl r)

theorem reads_advance (r : Reader) (count : Nat) : Reads P r (r.advance count) :=
  .move _ (.refl r)

theorem reads_report {problem : Problem} {target : Target} (hp : P problem)
    (h : r.targetPosition target < r.length) : Reads P r (r.report problem target) :=
  .record none (.refl r) hp h

theorem reads_reportIn {problem : Problem} {target : Target} (template : Template)
    (hp : P problem) (h : r.targetPosition target < r.length) :
    Reads P r (r.reportIn template problem target) :=
  .record (some template) (.refl r) hp h

/-- A report after which the rest is skipped. -/
theorem reads_report_skipToEnd {problem : Problem} {target : Target} (hp : P problem)
    (h : r.targetPosition target < r.length) :
    Reads P r (r.report problem target).skipToEnd :=
  (reads_report hp h).trans (reads_skipToEnd _)

theorem reads_reportIn_skipToEnd {problem : Problem} {target : Target} (template : Template)
    (hp : P problem) (h : r.targetPosition target < r.length) :
    Reads P r (r.reportIn template problem target).skipToEnd :=
  (reads_reportIn template hp h).trans (reads_skipToEnd _)

/-- Reading a pixel moves the cursor over it, and at the end nothing happens. -/
theorem next_cases (r : Reader) :
    (∃ p, r.next = (some p, r.advance 1) ∧ r.index < r.length) ∨ r.next = (none, r) := by
  unfold next
  cases hp : r.peek with
  | some p => exact .inl ⟨p, rfl, peek_eq_some hp⟩
  | none => exact .inr rfl

theorem index_lt_of_nextSequence {s : Sequence} (h : r.nextSequence.1 = some s) :
    r.index < r.length := by
  unfold nextSequence at h
  cases hr : r.remaining with
  | nil => simp [hr] at h
  | cons first rest =>
    have hlen := length_remaining r
    rw [hr, List.length_cons] at hlen
    omega

theorem reads_nextSequence (hP : P .missingMember) (r : Reader) :
    Reads P r r.nextSequence.2 := by
  unfold nextSequence
  cases hr : r.remaining with
  | nil => exact .refl r
  | cons first rest =>
    have hadv : Reads P r (r.advance (1 + (dottedTail rest).length)) := reads_advance r _
    have hlen := length_remaining r
    rw [hr, List.length_cons] at hlen
    have hpos : 0 < r.length := by omega
    dsimp only
    split
    · -- the dangling dot was read last
      exact hadv.trans (reads_report hP (cursor_lt hpos))
    · exact hadv

end

/-! ## Literals -/

section
variable (scope : Scope)

theorem reads_checkResolves {r : Reader} (p : Pixel) {position : Nat} (h : position < r.length) :
    Reads Problem.OfExpression r (r.checkResolves scope p position).2 := by
  unfold checkResolves
  cases scope.nameOf? p with
  | some _ => exact .refl r
  | none => exact reads_report trivial h

/-- A dotted name of a string is read, and reported where its first pixel names nothing. -/
theorem reads_nextSequence_checkResolves (r : Reader) {s : Sequence}
    (hs : r.nextSequence.1 = some s) :
    Reads Problem.OfExpression r (r.nextSequence.2.checkResolves scope s.first r.index).2 := by
  have hread : Reads Problem.OfExpression r r.nextSequence.2 := reads_nextSequence trivial r
  refine hread.trans (reads_checkResolves scope s.first ?_)
  rw [hread.length_eq]
  exact index_lt_of_nextSequence hs

theorem reads_stringParts (fuel : Nat) (parts : List StringPart) (text : List Char) (r : Reader) :
    Reads Problem.OfExpression r (r.stringParts scope fuel parts text).2 := by
  induction fuel generalizing parts text r with
  | zero => exact .refl r
  | succ fuel ih =>
    unfold stringParts
    cases hp : r.peek with
    | none => exact .refl r
    | some p =>
      have hstep : Reads Problem.OfExpression r (r.advance 1) := reads_advance r 1
      cases hc : p.character? with
      | some code =>
        simp only [hc]
        split
        · exact hstep.trans (ih _ _ _)
        · exact hstep.trans (ih _ _ _)
      | none =>
        simp only [hc]
        rcases hn : r.nextSequence with ⟨_ | s, r'⟩
        · have hread : Reads Problem.OfExpression r r.nextSequence.2 := reads_nextSequence trivial r
          rwa [hn] at hread
        · have hread := reads_nextSequence_checkResolves scope r (by rw [hn])
          rw [hn] at hread
          rcases hcr : r'.checkResolves scope s.first r.index with ⟨_ | _, r''⟩
          all_goals
            rw [hcr] at hread
            simp only [hcr]
            exact hread.trans (ih _ _ _)

theorem reads_readString (r : Reader) :
    Reads Problem.OfExpression r (r.readString scope).2 :=
  reads_stringParts scope _ _ _ r

end

/-- Reading pixel by pixel: each step reads within a reader that has pixels. -/
theorem reads_foldl {α : Type} {P : Problem → Prop} {f : α × Reader → Pixel → α × Reader}
    (hf : ∀ acc p, 0 < acc.2.length → Reads P acc.2 (f acc p).2) (pixels : List Pixel)
    (acc : α × Reader) (h : pixels ≠ [] → 0 < acc.2.length) :
    Reads P acc.2 (pixels.foldl f acc).2 := by
  induction pixels generalizing acc with
  | nil => exact .refl _
  | cons p pixels ih =>
    have hpos : 0 < acc.2.length := h (by simp)
    have hread := hf acc p hpos
    exact hread.trans (ih (f acc p) fun _ => hread.length_eq ▸ hpos)

/-- A reader with pixels that are not read yet has pixels. -/
theorem length_pos_of_remaining {r : Reader} (h : r.remaining ≠ []) : 0 < r.length := by
  have hlen := length_remaining r
  have hpos := List.length_pos_iff.2 h
  omega

theorem reads_numberStep (acc : List Char × Reader) (p : Pixel) (h : 0 < acc.2.length) :
    Reads Problem.OfExpression acc.2 (numberStep acc p).2 := by
  have hstep : Reads Problem.OfExpression acc.2 (acc.2.advance 1) := reads_advance acc.2 1
  unfold numberStep
  cases p.character? with
  | some code => exact hstep
  | none => exact hstep.trans (reads_report trivial (cursor_lt h))

theorem reads_readNumber (r : Reader) : Reads Problem.OfExpression r r.readNumber.2 :=
  reads_foldl reads_numberStep r.remaining ([], r) length_pos_of_remaining

theorem reads_readBoolean (r : Reader) : Reads Problem.OfExpression r r.readBoolean.2 := by
  unfold readBoolean
  obtain ⟨p, hn, hlt⟩ | hn := next_cases r
  · have hstep : Reads Problem.OfExpression r (r.advance 1) := reads_advance r 1
    simp only [hn]
    cases p.boolean? with
    | some value => exact hstep
    | none => exact hstep.trans (reads_report trivial (cursor_lt (Nat.zero_lt_of_lt hlt)))
  · simp only [hn]
    exact .refl r

/-! ## Arguments

`nested` stands for the reading of slices one level down. -/

/-- Slices are read within their own pixels. -/
def Sound (nested : SliceReader) : Prop :=
  ∀ r : Reader, Reads Problem.OfExpression r (nested r).2

theorem argumentLength_le (pixels : List Pixel) : argumentLength pixels ≤ pixels.length := by
  cases pixels with
  | nil => exact Nat.le_refl _
  | cons p rest =>
    have hchars := (List.takeWhile_sublist (p := Pixel.isCharacter) (l := rest)).length_le
    have hdots := dottedTail_length_le rest
    simp only [argumentLength, List.length_cons]
    repeat' split
    all_goals omega

theorem reads_checkArity {r : Reader} (m : Member) (name : String) (found : Nat) {start : Nat}
    (h : start < r.length) :
    Reads Problem.OfExpression r (r.checkArity m name found start) := by
  unfold checkArity
  split
  · exact .refl r
  · exact reads_report trivial h

/-- The number of pixels of operators, each with the pixels up to the next. -/
def segmentsLength : List (Operator × List Pixel) → Nat
  | [] => 0
  | segment :: more => segment.2.length + 1 + segmentsLength more

/-- The operands and operators make up all the pixels that were split. -/
theorem length_splitOperators (pixels : List Pixel) :
    (splitOperators pixels).1.length + segmentsLength (splitOperators pixels).2 =
      pixels.length := by
  induction pixels with
  | nil => rfl
  | cons p rest ih =>
    simp only [splitOperators]
    cases p.operator? with
    | some op =>
      simp only [List.length_nil, segmentsLength, List.length_cons]
      omega
    | none =>
      simp only [List.length_cons]
      omega

theorem reads_finish (r : Reader) : Reads Problem.OfExpression r r.finish := by
  unfold finish
  cases hp : r.peek with
  | some p => exact reads_report_skipToEnd trivial (peek_eq_some hp)
  | none => exact .refl r

section
variable (scope : Scope) {nested : SliceReader} (hnested : Sound nested)
include hnested

theorem reads_readSlice (r : Reader) (start stop : Nat) :
    Reads Problem.OfExpression r (r.readSlice nested start stop).2 :=
  .absorb (.refl r) (hnested (r.slice start stop))

theorem reads_readArguments (fuel : Nat) (r : Reader) :
    Reads Problem.OfExpression r (r.readArguments nested fuel).2 := by
  induction fuel generalizing r with
  | zero => exact .refl r
  | succ fuel ih =>
    unfold readArguments
    dsimp only
    split
    · exact .refl r
    · have hone : Reads Problem.OfExpression r ((r.advance (argumentLength r.remaining)).readSlice
          nested r.index (r.index + argumentLength r.remaining)).2 :=
        (reads_advance r _).trans (reads_readSlice hnested _ _ _)
      split
      · exact hone
      · exact hone.trans (ih _)

theorem reads_readApplied {r : Reader} (m : Member) (name : String) {start : Nat}
    (hstart : start < r.length) :
    Reads Problem.OfExpression r (r.readApplied nested m name start).2 := by
  have hargs := reads_readArguments hnested r.remaining.length r
  exact hargs.trans (reads_checkArity m name _ (by rwa [hargs.length_eq]))

/-! ## Calls and structs -/

theorem reads_readCallOf {r : Reader} (s : Sequence) {start : Nat} (hstart : start < r.length) :
    Reads Problem.OfExpression r (r.readCallOf scope nested s start).2 := by
  unfold readCallOf
  dsimp only
  split
  · exact reads_readApplied hnested _ _ hstart
  · split
    · exact reads_report_skipToEnd trivial (cursor_lt (Nat.zero_lt_of_lt hstart))
    · exact .refl r

theorem reads_readCall (r : Reader) :
    Reads Problem.OfExpression r (r.readCall scope nested).2 := by
  unfold readCall
  rcases hn : r.nextSequence with ⟨_ | s, r'⟩
  · have hread : Reads Problem.OfExpression r r.nextSequence.2 := reads_nextSequence trivial r
    rwa [hn] at hread
  · have hin : r.index < r.length := index_lt_of_nextSequence (by rw [hn])
    have hread := reads_nextSequence_checkResolves scope r (by rw [hn])
    rw [hn] at hread
    rcases hc : r'.checkResolves scope s.first r.index with ⟨_ | _, r''⟩
    all_goals
      rw [hc] at hread
      simp only [hc]
    · exact hread.trans (reads_skipToEnd r'')
    · refine hread.trans (reads_readCallOf scope hnested s ?_)
      rwa [hread.length_eq]

theorem reads_readConstruct (r : Reader) :
    Reads Problem.OfExpression r (r.readConstruct scope nested).2 := by
  unfold readConstruct
  obtain ⟨p, hn, hlt⟩ | hn := next_cases r
  · have hstep : Reads Problem.OfExpression r (r.advance 1) := reads_advance r 1
    simp only [hn]
    split
    · exact hstep.trans (reads_readApplied hnested _ _ hlt)
    · exact hstep.trans (reads_report_skipToEnd trivial hlt)
  · simp only [hn]
    exact .refl r

/-! ## Compound expressions -/

/-- The operand after an operator starts right after it, so that the operator's pixel is the one
before. -/
theorem reads_readOperands (more : List (Operator × List Pixel)) (before : Option Operator)
    (start length : Nat) (r : Reader)
    (h : start + length + segmentsLength more ≤ r.length)
    (hbefore : before.isSome → 0 < start) :
    Reads Problem.OfExpression r (r.readOperands nested more before start length).2 := by
  induction more generalizing before start length r with
  | nil =>
    have hslice := reads_readSlice hnested r start (start + length)
    unfold readOperands
    dsimp only
    cases before with
    | none => exact hslice
    | some op =>
      dsimp only
      split
      · refine hslice.trans (reads_report trivial ?_)
        show start - 1 < Reader.length _
        rw [hslice.length_eq]
        have := hbefore rfl
        rw [segmentsLength] at h
        omega
      · exact hslice
  | cons segment more ih =>
    obtain ⟨op, pixels⟩ := segment
    have hslice := reads_readSlice hnested r start (start + length)
    simp only [segmentsLength] at h
    refine hslice.trans (ih (some op) (start + length + 1) pixels.length _ ?_ fun _ => by omega)
    rw [hslice.length_eq]
    omega

theorem reads_readCompound (r : Reader) :
    Reads Problem.OfExpression r (r.readCompound nested).2 := by
  have hindex : r.index ≤ r.length := r.index_le
  have hlen := length_splitOperators r.remaining
  rw [length_remaining] at hlen
  exact (reads_readOperands hnested (splitOperators r.remaining).2 none r.index
    (splitOperators r.remaining).1.length r (by omega) (by simp)).trans (reads_skipToEnd _)

/-! ## Whole expressions -/

theorem reads_readShape (shape : Shape) (r : Reader) :
    Reads Problem.OfExpression r (r.readShape scope nested shape).2 := by
  cases shape with
  | string => exact reads_readString scope r
  | number => exact reads_readNumber r
  | boolean => exact reads_readBoolean r
  | call => exact reads_readCall scope hnested r
  | construct => exact reads_readConstruct scope hnested r
  | compound => exact reads_readCompound hnested r
  | empty => exact .refl r

theorem reads_readWith (shape : Shape) (r : Reader) :
    Reads Problem.OfExpression r (r.readWith scope nested shape).2 :=
  (reads_readShape scope hnested shape r).trans (reads_finish _)

end

/-- Slices are read within their own pixels, however deep they nest. -/
theorem reads_evalSlice (scope : Scope) (depth : Nat) : Sound (evalSlice scope depth) := by
  induction depth with
  | zero => exact .refl
  | succ depth ih => exact fun r => reads_readWith scope ih (r.analyze scope) r

theorem reads_evalAs (scope : Scope) (shape : Shape) (r : Reader) :
    Reads Problem.OfExpression r (r.evalAs scope shape).2 :=
  reads_readWith scope (reads_evalSlice scope sliceDepth) shape r

end Reader

end PixelLang
