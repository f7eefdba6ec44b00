import Mathlib.Data.List.TakeWhile
import PixelLang.Proofs.Reading

/-!
# What an expression depends on

An expression and its problems depend on the pixels that remain, and on nothing else of the reader:
not on where the pixels stand, on what was reported before or on how deep slices may nest.

* `Reader.Alike`: two readers have the same pixels to read and have reported the same problems.
  Each operation of reading keeps them alike and reads the same.
* `slicesOf`: the slices that are read for an expression of a shape.
* `shallow`: slices nest at most three deep, so that the depth of `evalSlice` is never reached.
* `Reader.Alike.evalAs`: an expression is read as its shape says, each slice of it by `eval`.
-/

set_option autoImplicit false

namespace PixelLang

/-! ## Spans of arguments -/

/-- The pixels of the arguments at the front of a list, one after the other, and what is left. -/
def argumentSpans (pixels : List Pixel) : List (List Pixel) × List Pixel :=
  if _h : argumentLength pixels = 0 then ([], pixels)
  else
    let (spans, rest) := argumentSpans (pixels.drop (argumentLength pixels))
    (pixels.take (argumentLength pixels) :: spans, rest)
termination_by pixels.length
decreasing_by
  have hle := Reader.argumentLength_le pixels
  simp only [List.length_drop]
  omega

theorem argumentSpans_stop {pixels : List Pixel} (h : argumentLength pixels = 0) :
    argumentSpans pixels = ([], pixels) := by
  rw [argumentSpans, dif_pos h]

theorem argumentSpans_step {pixels : List Pixel} (h : argumentLength pixels ≠ 0) :
    argumentSpans pixels =
      (pixels.take (argumentLength pixels) ::
        (argumentSpans (pixels.drop (argumentLength pixels))).1,
        (argumentSpans (pixels.drop (argumentLength pixels))).2) := by
  rw [argumentSpans, dif_neg h]

namespace Reader

/-! ## Readers alike -/

/-- The problems that were reported so far. -/
def problems (r : Reader) : List Problem := r.diagnostics.map (·.problem)

section
variable (r : Reader)

@[simp]
theorem remaining_advance (count : Nat) :
    (r.advance count).remaining = r.remaining.drop count := by
  rw [remaining, remaining, List.drop_drop]
  exact List.drop_eq_drop_min.symm

@[simp]
theorem remaining_skipToEnd : r.skipToEnd.remaining = [] := by
  simp [remaining, skipToEnd, length]

@[simp]
theorem remaining_report (problem : Problem) (target : Target) :
    (r.report problem target).remaining = r.remaining := rfl

@[simp]
theorem remaining_absorb (s : Reader) : (r.absorb s).remaining = r.remaining := rfl

@[simp]
theorem problems_advance (count : Nat) : (r.advance count).problems = r.problems := rfl

@[simp]
theorem problems_skipToEnd : r.skipToEnd.problems = r.problems := rfl

@[simp]
theorem problems_report (problem : Problem) (target : Target) :
    (r.report problem target).problems = r.problems ++ [problem] := by
  simp [problems, report, record, locate]

@[simp]
theorem problems_absorb (s : Reader) : (r.absorb s).problems = r.problems ++ s.problems := by
  simp [problems, absorb]

@[simp]
theorem problems_slice (start stop : Nat) : (r.slice start stop).problems = [] := rfl

theorem peek_eq_head? : r.peek = r.remaining.head? := by
  simp [peek, remaining]

theorem hasNext_eq : r.hasNext = !r.remaining.isEmpty := by
  rw [Bool.eq_iff_iff, hasNext, decide_eq_true_iff]
  simp [remaining, length]

@[simp]
theorem remaining_checkResolves (scope : Scope) (p : Pixel) (position : Nat) :
    (r.checkResolves scope p position).2.remaining = r.remaining := by
  unfold checkResolves
  split <;> rfl

/-- A dotted name is read with its dots, and a last dot without a member is reported. -/
theorem nextSequence_cons {first : Pixel} {rest : List Pixel} (h : r.remaining = first :: rest) :
    ∃ t, r.nextSequence = (some ⟨first, (dottedTail rest).members⟩, t) ∧
      t.remaining = rest.drop (dottedTail rest).length ∧
      t.problems = r.problems ++ if (dottedTail rest).dangling then [.missingMember] else [] := by
  rw [nextSequence, h]
  dsimp only
  refine ⟨_, rfl, ?_, ?_⟩ <;> split <;> simp [h, Nat.add_comm 1]

theorem next_cons {p : Pixel} {rest : List Pixel} (h : r.remaining = p :: rest) :
    r.next = (some p, r.advance 1) := by
  rw [next, peek_eq_head?, h]
  rfl

@[simp]
theorem index_readSlice (nested : SliceReader) (start stop : Nat) :
    (r.readSlice nested start stop).2.index = r.index := rfl

@[simp]
theorem remaining_readSlice (nested : SliceReader) (start stop : Nat) :
    (r.readSlice nested start stop).2.remaining = r.remaining := rfl

theorem remaining_slice (offset count : Nat) :
    (r.slice (r.index + offset) (r.index + offset + count)).remaining =
      (r.remaining.drop offset).take count := by
  have hpixels := r.pixels_slice (Nat.le_add_right (r.index + offset) count)
  rw [Nat.add_sub_cancel_left] at hpixels
  rw [remaining, hpixels, remaining, List.drop_drop]
  rfl

end

/-- The readers have the same pixels to read and have reported the same problems. -/
structure Alike (r r' : Reader) : Prop where
  remaining : r.remaining = r'.remaining
  problems : r.problems = r'.problems

/-- Two results of reading are the same, and the readers that are left are alike. -/
structure SameResult {α : Type} (x y : α × Reader) : Prop where
  value : x.1 = y.1
  reader : Alike x.2 y.2

theorem SameResult.cases {α : Type} {x y : α × Reader} (h : SameResult x y) :
    ∃ a t t', x = (a, t) ∧ y = (a, t') ∧ Alike t t' :=
  ⟨x.1, x.2, y.2, rfl, by rw [h.value], h.reader⟩

namespace Alike

variable {r r' : Reader}

theorem advance (h : Alike r r') (count : Nat) : Alike (r.advance count) (r'.advance count) :=
  ⟨by simp [h.remaining], h.problems⟩

theorem skipToEnd (h : Alike r r') : Alike r.skipToEnd r'.skipToEnd :=
  ⟨by simp, h.problems⟩

theorem report (h : Alike r r') (problem : Problem) (target target' : Target) :
    Alike (r.report problem target) (r'.report problem target') :=
  ⟨h.remaining, by simp [h.problems]⟩

theorem absorb (h : Alike r r') {s s' : Reader} (hs : Alike s s') :
    Alike (r.absorb s) (r'.absorb s') :=
  ⟨h.remaining, by simp [h.problems, hs.problems]⟩

theorem peek (h : Alike r r') : r.peek = r'.peek := by
  rw [peek_eq_head?, peek_eq_head?, h.remaining]

theorem next (h : Alike r r') : SameResult r.next r'.next := by
  rw [Reader.next, Reader.next, h.peek]
  split
  · exact ⟨rfl, h.advance 1⟩
  · exact ⟨rfl, h⟩

theorem nextSequence (h : Alike r r') : SameResult r.nextSequence r'.nextSequence := by
  rw [Reader.nextSequence, Reader.nextSequence, h.remaining]
  split
  · exact ⟨rfl, h⟩
  · dsimp only
    split
    · exact ⟨rfl, (h.advance _).report _ _ _⟩
    · exact ⟨rfl, h.advance _⟩

theorem checkResolves (h : Alike r r') (scope : Scope) (p : Pixel) (position position' : Nat) :
    SameResult (r.checkResolves scope p position) (r'.checkResolves scope p position') := by
  rw [Reader.checkResolves, Reader.checkResolves]
  split
  · exact ⟨rfl, h⟩
  · exact ⟨rfl, h.report _ _ _⟩

/-! ## Literals -/

theorem stringParts (scope : Scope) (fuel : Nat) (parts : List StringPart) (text : List Char)
    (h : Alike r r') :
    SameResult (r.stringParts scope fuel parts text) (r'.stringParts scope fuel parts text) := by
  induction fuel generalizing parts text r r' with
  | zero => exact ⟨rfl, h⟩
  | succ fuel ih =>
    rw [Reader.stringParts, Reader.stringParts, h.peek]
    split
    · exact ⟨rfl, h⟩
    · split
      · split
        · exact ih _ _ (h.advance 1)
        · exact ih _ _ (h.advance 1)
      · obtain ⟨sequence?, t, t', hr, hr', ht⟩ := h.nextSequence.cases
        rw [hr, hr']
        cases sequence? with
        | none => exact ⟨rfl, ht⟩
        | some sequence =>
          obtain ⟨resolves, u, u', hc, hc', hu⟩ :=
            (ht.checkResolves scope sequence.first r.index r'.index).cases
          simp only [hc, hc']
          cases resolves with
          | true => exact ih _ _ hu
          | false => exact ih _ _ hu

theorem readString (h : Alike r r') (scope : Scope) :
    SameResult (r.readString scope) (r'.readString scope) := by
  obtain ⟨parts, t, t', hr, hr', ht⟩ := (h.stringParts scope r.remaining.length [] []).cases
  rw [Reader.readString, Reader.readString, hr, ← h.remaining, hr']
  exact ⟨rfl, ht⟩

theorem readNumber (h : Alike r r') : SameResult r.readNumber r'.readNumber := by
  have hfold : ∀ (pixels : List Pixel) (digits : List Char) {t t' : Reader}, Alike t t' →
      SameResult (pixels.foldl numberStep (digits, t)) (pixels.foldl numberStep (digits, t')) := by
    intro pixels
    induction pixels with
    | nil => exact fun digits t t' ht => ⟨rfl, ht⟩
    | cons p pixels ih =>
      intro digits t t' ht
      rw [List.foldl_cons, List.foldl_cons, numberStep, numberStep]
      cases p.character? with
      | some code => exact ih _ (ht.advance 1)
      | none => exact ih _ ((ht.advance 1).report _ _ _)
  obtain ⟨digits, t, t', hr, hr', ht⟩ := (hfold r.remaining [] h).cases
  rw [Reader.readNumber, Reader.readNumber, hr, ← h.remaining, hr']
  exact ⟨rfl, ht⟩

theorem readBoolean (h : Alike r r') : SameResult r.readBoolean r'.readBoolean := by
  obtain ⟨p?, t, t', hr, hr', ht⟩ := h.next.cases
  rw [Reader.readBoolean, Reader.readBoolean, hr, hr']
  cases p? with
  | none => exact ⟨rfl, ht⟩
  | some p =>
    dsimp only
    cases p.boolean? with
    | some value => exact ⟨rfl, ht⟩
    | none => exact ⟨rfl, ht.report _ _ _⟩

theorem finish (h : Alike r r') : Alike r.finish r'.finish := by
  rw [Reader.finish, Reader.finish, h.peek]
  split
  · exact (h.report _ _ _).skipToEnd
  · exact h

theorem checkArity (h : Alike r r') (m : Member) (name : String) (found start start' : Nat) :
    Alike (r.checkArity m name found start) (r'.checkArity m name found start') := by
  rw [Reader.checkArity, Reader.checkArity]
  split
  · exact h
  · exact h.report _ _ _

end Alike

end Reader

/-! ## Slices -/

/-- The slices that are read for an expression of a shape. Only literals have none. -/
def slicesOf : Shape → List Pixel → List (List Pixel)
  | .call, _ :: rest => (argumentSpans (rest.drop (dottedTail rest).length)).1
  | .construct, _ :: rest => (argumentSpans rest).1
  | .compound, pixels =>
    (splitOperators pixels).1 :: (splitOperators pixels).2.map fun segment => segment.2
  | _, _ => []

theorem take_splitOperators (pixels : List Pixel) :
    pixels.take (splitOperators pixels).1.length = (splitOperators pixels).1 := by
  induction pixels with
  | nil => rfl
  | cons p rest ih =>
    rw [splitOperators]
    cases p.operator? with
    | some op => rfl
    | none => simp [ih]

/-- After the first operator the splitting goes on in the same way. -/
theorem drop_splitOperators {pixels : List Pixel} {op : Operator} {segment : List Pixel}
    {more : List (Operator × List Pixel)} (h : (splitOperators pixels).2 = (op, segment) :: more) :
    splitOperators (pixels.drop ((splitOperators pixels).1.length + 1)) = (segment, more) := by
  induction pixels with
  | nil => simp [splitOperators] at h
  | cons p rest ih =>
    rw [splitOperators] at h ⊢
    cases hp : p.operator? with
    | some op' =>
      simp only [hp, List.cons.injEq, Prod.mk.injEq] at h
      exact Prod.ext h.1.2 h.2
    | none => simp_all

namespace Reader

/-- The slice of an operand holds the segment it stands for. -/
theorem remaining_operand {r : Reader} {offset : Nat} {segment : List Pixel}
    {more : List (Operator × List Pixel)}
    (h : splitOperators (r.remaining.drop offset) = (segment, more)) :
    (r.slice (r.index + offset) (r.index + offset + segment.length)).remaining = segment := by
  have htake := take_splitOperators (r.remaining.drop offset)
  rw [remaining_slice]
  rwa [h] at htake

/-- The slices of these pixels are read alike. -/
def Agree (slices : List (List Pixel)) (nested nested' : SliceReader) : Prop :=
  ∀ s s' : Reader, Alike s s' → s.remaining ∈ slices → SameResult (nested s) (nested' s')

namespace Alike

variable {r r' : Reader} {nested nested' : SliceReader}

theorem slice (h : Alike r r') (offset count : Nat) :
    Alike (r.slice (r.index + offset) (r.index + offset + count))
      (r'.slice (r'.index + offset) (r'.index + offset + count)) :=
  ⟨by rw [remaining_slice, remaining_slice, h.remaining], rfl⟩

theorem readSlice (h : Alike r r') {start stop start' stop' : Nat}
    (hs : SameResult (nested (r.slice start stop)) (nested' (r'.slice start' stop'))) :
    SameResult (r.readSlice nested start stop) (r'.readSlice nested' start' stop') :=
  ⟨hs.value, h.absorb hs.reader⟩

theorem readArguments (fuel : Nat) (h : Alike r r')
    (hn : Agree (argumentSpans r.remaining).1 nested nested') :
    SameResult (r.readArguments nested fuel) (r'.readArguments nested' fuel) := by
  induction fuel generalizing r r' with
  | zero => exact ⟨rfl, h⟩
  | succ fuel ih =>
    rw [Reader.readArguments, Reader.readArguments, ← h.remaining]
    dsimp only
    split
    · exact ⟨rfl, h⟩
    · rename_i hcount
      rw [argumentSpans_step hcount] at hn
      have hslice := hn _ _ (h.slice 0 (argumentLength r.remaining))
        (by rw [remaining_slice]; exact .head _)
      obtain ⟨e, t, t', hr, hr', ht⟩ :=
        ((h.advance (argumentLength r.remaining)).readSlice hslice).cases
      have hremaining : t.remaining = r.remaining.drop (argumentLength r.remaining) := by
        simpa using (congrArg (·.2.remaining) hr).symm
      rw [Nat.add_zero] at hr hr'
      rw [hr, hr']
      dsimp only
      split
      · exact ⟨rfl, ht⟩
      · obtain ⟨es, u, u', hu, hu', hrest⟩ := (ih ht (by
          rw [hremaining]
          exact fun s s' hs hmem => hn s s' hs (.tail _ hmem))).cases
        rw [hu, hu']
        exact ⟨rfl, hrest⟩

theorem readApplied (h : Alike r r') (hn : Agree (argumentSpans r.remaining).1 nested nested')
    (m : Member) (name : String) (start start' : Nat) :
    SameResult (r.readApplied nested m name start) (r'.readApplied nested' m name start') := by
  obtain ⟨es, t, t', hr, hr', ht⟩ := (h.readArguments r.remaining.length hn).cases
  rw [Reader.readApplied, Reader.readApplied, hr, ← h.remaining, hr']
  exact ⟨rfl, ht.checkArity _ _ _ _ _⟩

theorem readCallOf (h : Alike r r') (hn : Agree (argumentSpans r.remaining).1 nested nested')
    (scope : Scope) (s : Sequence) (start start' : Nat) :
    SameResult (r.readCallOf scope nested s start) (r'.readCallOf scope nested' s start') := by
  rw [Reader.readCallOf, Reader.readCallOf]
  cases scope.callable? s with
  | some m =>
    obtain ⟨es, t, t', hr, hr', ht⟩ :=
      (h.readApplied hn m (scope.sequenceCode s) start start').cases
    simp only [hr, hr']
    exact ⟨rfl, ht⟩
  | none =>
    simp only [hasNext_eq, h.remaining]
    split
    · exact ⟨rfl, (h.report _ _ _).skipToEnd⟩
    · exact ⟨rfl, h⟩

theorem readCall (h : Alike r r') (scope : Scope)
    (hn : Agree (slicesOf .call r.remaining) nested nested') :
    SameResult (r.readCall scope nested) (r'.readCall scope nested') := by
  obtain ⟨sequence?, t, t', hr, hr', ht⟩ := h.nextSequence.cases
  rw [Reader.readCall, Reader.readCall, hr, hr']
  cases hps : r.remaining with
  | nil =>
    have hnone : sequence? = none := by
      rw [Reader.nextSequence, hps] at hr
      exact (congrArg Prod.fst hr).symm
    rw [hnone]
    exact ⟨rfl, ht⟩
  | cons first rest =>
    obtain ⟨u, hu, hremaining, -⟩ := r.nextSequence_cons hps
    obtain ⟨rfl, rfl⟩ := Prod.mk.inj (hr.symm.trans hu)
    obtain ⟨resolves, v, v', hc, hc', hv⟩ := (ht.checkResolves scope first r.index r'.index).cases
    simp only [hc, hc']
    cases resolves with
    | false => exact ⟨rfl, hv.skipToEnd⟩
    | true =>
      have hslices : v.remaining = rest.drop (dottedTail rest).length := by
        rw [← hremaining, ← t.remaining_checkResolves scope first r.index, hc]
      refine hv.readCallOf ?_ scope _ _ _
      rw [hslices]
      rwa [hps] at hn

theorem readConstruct (h : Alike r r') (scope : Scope)
    (hn : Agree (slicesOf .construct r.remaining) nested nested') :
    SameResult (r.readConstruct scope nested) (r'.readConstruct scope nested') := by
  cases hps : r.remaining with
  | nil =>
    have hnone : r'.next = (none, r') := by
      rw [Reader.next, ← h.peek, peek_eq_head?, hps]
      rfl
    have hnone' : r.next = (none, r) := by
      rw [Reader.next, peek_eq_head?, hps]
      rfl
    rw [Reader.readConstruct, Reader.readConstruct, hnone, hnone']
    exact ⟨rfl, h⟩
  | cons p rest =>
    rw [Reader.readConstruct, Reader.readConstruct, r.next_cons hps,
      r'.next_cons (h.remaining ▸ hps)]
    dsimp only
    split
    · rename_i m hm
      have hadvance : Agree (argumentSpans (r.advance 1).remaining).1 nested nested' := by
        rw [hps] at hn
        rwa [remaining_advance, hps]
      obtain ⟨es, t, t', hr, hr', ht⟩ :=
        ((h.advance 1).readApplied hadvance m (scope.firstCode p) r.index r'.index).cases
      simp only [hr, hr']
      exact ⟨rfl, ht⟩
    · exact ⟨rfl, ((h.advance 1).report _ _ _).skipToEnd⟩

/-- The operands are the segments between the operators. -/
theorem readOperands {more : List (Operator × List Pixel)} (before : Option Operator)
    (offset : Nat) {segment : List Pixel} (h : Alike r r')
    (hsplit : splitOperators (r.remaining.drop offset) = (segment, more))
    (hn : Agree (segment :: more.map fun segment => segment.2) nested nested') :
    SameResult (r.readOperands nested more before (r.index + offset) segment.length)
      (r'.readOperands nested' more before (r'.index + offset) segment.length) := by
  induction more generalizing before offset segment r r' with
  | nil =>
    have hslice := hn _ _ (h.slice offset segment.length)
      (by rw [remaining_operand hsplit]; exact .head _)
    obtain ⟨e, t, t', hr, hr', ht⟩ := (h.readSlice hslice).cases
    rw [Reader.readOperands, Reader.readOperands, hr, hr']
    cases before with
    | none => exact ⟨rfl, ht⟩
    | some op =>
      dsimp only
      split
      · exact ⟨rfl, ht.report _ _ _⟩
      · exact ⟨rfl, ht⟩
  | cons head more ih =>
    obtain ⟨op, segment'⟩ := head
    have hslice := hn _ _ (h.slice offset segment.length)
      (by rw [remaining_operand hsplit]; exact .head _)
    have hread := h.readSlice hslice
    -- the slice moves no cursor, so the next operand starts after the operator
    have hnext : splitOperators (r.remaining.drop (offset + segment.length + 1)) =
        (segment', more) := by
      have hdrop := drop_splitOperators (congrArg Prod.snd hsplit)
      rwa [hsplit, List.drop_drop, ← Nat.add_assoc] at hdrop
    have hrest := ih (some op) (offset + segment.length + 1) hread.reader hnext
      fun s s' hs hmem => hn s s' hs (.tail _ hmem)
    simp only [index_readSlice, ← Nat.add_assoc] at hrest
    rw [Reader.readOperands, Reader.readOperands]
    exact ⟨by simp only [hread.value, hrest.value], hrest.reader⟩

theorem readCompound (h : Alike r r') (hn : Agree (slicesOf .compound r.remaining) nested nested') :
    SameResult (r.readCompound nested) (r'.readCompound nested') := by
  have hread := h.readOperands none 0 rfl hn
  rw [Reader.readCompound, Reader.readCompound, ← h.remaining]
  exact ⟨congrArg Expression.compound hread.value, hread.reader.skipToEnd⟩

/-! ## Whole expressions -/

theorem readWith (h : Alike r r') (scope : Scope) (shape : Shape)
    (hn : Agree (slicesOf shape r.remaining) nested nested') :
    SameResult (r.readWith scope nested shape) (r'.readWith scope nested' shape) := by
  have hread : SameResult (r.readShape scope nested shape) (r'.readShape scope nested' shape) := by
    cases shape with
    | string => exact h.readString scope
    | number => exact h.readNumber
    | boolean => exact h.readBoolean
    | call => exact h.readCall scope hn
    | construct => exact h.readConstruct scope hn
    | compound => exact h.readCompound hn
    | empty => exact ⟨rfl, h⟩
  exact ⟨hread.value, hread.reader.finish⟩

end Alike

end Reader

/-! ## What a shape tells of the pixels -/

section
variable {scope : Scope} {p : Pixel} {rest : List Pixel}

theorem shapeOf_eq_compound_iff {pixels : List Pixel} :
    shapeOf scope pixels = .compound ↔ pixels.any Pixel.isOperator := by
  cases pixels with
  | nil => simp [shapeOf]
  | cons p rest =>
    rw [shapeOf]
    split
    · simp_all
    · rename_i hop
      simp only [hop]
      grind

theorem exists_struct_of_shapeOf (h : shapeOf scope (p :: rest) = .construct) :
    ∃ m, scope.member? p = some m ∧ m.isStruct := by
  by_contra hnone
  have hstruct : ¬(scope.member? p).any Member.isStruct := by
    simpa [Option.any_eq_true] using hnone
  simp only [shapeOf, hstruct] at h
  grind

theorem isCharacter_of_shapeOf (h : shapeOf scope (p :: rest) = .number) : p.isCharacter := by
  rw [shapeOf, isNumber, List.all_cons] at h
  grind

theorem isBoolean_of_shapeOf (h : shapeOf scope (p :: rest) = .boolean) : p.isBoolean := by
  rw [shapeOf] at h
  grind

theorem shapeOf_ne_empty : shapeOf scope (p :: rest) ≠ .empty := by
  rw [shapeOf]
  grind

theorem not_isCharacter_of_shapeOf (h : shapeOf scope (p :: rest) = .call) :
    p.isCharacter = false := by
  rw [shapeOf] at h
  grind

end

/-! ## How deep slices nest -/

theorem dottedTail_take (pixels : List Pixel) :
    dottedTail (pixels.take (dottedTail pixels).length) = dottedTail pixels := by
  fun_induction dottedTail pixels with
  | case1 => rfl
  | case2 p => cases h : p.isDot <;> simp [DottedTail.length, dottedTail, h]
  | case3 p member rest hp tail ih =>
    have hlength : DottedTail.length ⟨member :: tail.members, tail.dangling⟩ = tail.length + 2 := by
      simp only [DottedTail.length, List.length_cons]
      omega
    rw [hlength, List.take_succ_cons, List.take_succ_cons, dottedTail, if_pos hp, ih]
  | case4 => rfl

/-- The pixels of an argument are an argument of their own. -/
theorem argumentLength_take (pixels : List Pixel) :
    argumentLength (pixels.take (argumentLength pixels)) = argumentLength pixels := by
  cases pixels with
  | nil => rfl
  | cons p rest =>
    have hrun : rest.take (rest.takeWhile Pixel.isCharacter).length =
        rest.takeWhile Pixel.isCharacter :=
      (List.prefix_iff_eq_take.1 (List.takeWhile_prefix _)).symm
    rw [argumentLength]
    split
    · rename_i hp
      rw [Nat.add_comm, List.take_succ_cons, argumentLength, if_pos hp, hrun,
        List.takeWhile_idem, Nat.add_comm]
    · split
      · simp [argumentLength, *]
      · split
        · rfl
        · rw [Nat.add_comm, List.take_succ_cons, argumentLength, dottedTail_take]
          simp [*, Nat.add_comm]

/-- A span is the argument at the front of some end of the pixels. -/
theorem exists_of_mem_argumentSpans {pixels span : List Pixel}
    (h : span ∈ (argumentSpans pixels).1) :
    ∃ rest, rest <:+ pixels ∧ argumentLength rest ≠ 0 ∧ span = rest.take (argumentLength rest) := by
  induction pixels using argumentSpans.induct with
  | case1 pixels hstop =>
    rw [argumentSpans_stop hstop] at h
    exact absurd h List.not_mem_nil
  | case2 pixels hstep _ _ _ ih =>
    rw [argumentSpans_step hstep] at h
    rcases List.mem_cons.1 h with rfl | hmem
    · exact ⟨pixels, List.suffix_refl _, hstep, rfl⟩
    · obtain ⟨rest, hrest, hspan⟩ := ih hmem
      exact ⟨rest, hrest.trans (List.drop_suffix _ _), hspan⟩

theorem argumentLength_span {pixels span : List Pixel} (h : span ∈ (argumentSpans pixels).1) :
    argumentLength span = span.length := by
  obtain ⟨rest, -, -, rfl⟩ := exists_of_mem_argumentSpans h
  rw [argumentLength_take, List.length_take, Nat.min_eq_left (Reader.argumentLength_le rest)]

theorem mem_of_mem_span {pixels span : List Pixel} {p : Pixel}
    (h : span ∈ (argumentSpans pixels).1) (hp : p ∈ span) : p ∈ pixels := by
  obtain ⟨rest, hrest, -, rfl⟩ := exists_of_mem_argumentSpans h
  exact hrest.subset (List.mem_of_mem_take hp)

theorem argumentLength_dot {p : Pixel} (hp : p.isDot) (rest : List Pixel) :
    argumentLength (p :: rest) = 0 := by
  have hkind : p.kind = .operator .dot := eq_of_beq hp
  simp [argumentLength, Pixel.isCharacter, Pixel.character?, Pixel.isBoolean, Pixel.boolean?,
    hp, hkind]

/-- A name pixel starts an argument of its dotted run. -/
theorem argumentLength_name {p : Pixel} (hp : p.isSymbol || p.isLibrary) (rest : List Pixel) :
    argumentLength (p :: rest) = 1 + (dottedTail rest).length := by
  cases hkind : p.kind <;>
    simp_all [argumentLength, Pixel.isCharacter, Pixel.character?, Pixel.isBoolean, Pixel.boolean?,
      Pixel.isOperator, Pixel.operator?, Pixel.isDot, Pixel.isKeyword, Pixel.keyword?,
      Pixel.isSymbol, Pixel.isLibrary, Pixel.library?]

theorem Scope.isName_of_member? {scope : Scope} {p : Pixel} {m : Member}
    (h : scope.member? p = some m) : p.isSymbol || p.isLibrary := by
  rw [Scope.member?] at h
  split at h
  · assumption
  · contradiction

/-- After a name that takes all pixels, no argument can start. -/
theorem argumentLength_of_dottedTail {pixels : List Pixel}
    (h : (dottedTail pixels).length = pixels.length) : argumentLength pixels = 0 := by
  cases pixels with
  | nil => rfl
  | cons p rest =>
    cases hp : p.isDot with
    | true => exact argumentLength_dot hp rest
    | false =>
      have hnone : (dottedTail (p :: rest)).length = 0 := by
        cases rest <;> simp [dottedTail, hp, DottedTail.length]
      rw [hnone] at h
      exact absurd h.symm (Nat.succ_ne_zero _)

/-- An argument without operators has no slices: it is a literal or a name. -/
theorem slicesOf_argument (scope : Scope) {pixels : List Pixel}
    (h : argumentLength pixels = pixels.length) (hop : pixels.any Pixel.isOperator = false) :
    slicesOf (shapeOf scope pixels) pixels = [] := by
  cases pixels with
  | nil => rfl
  | cons p rest =>
    have hnested : ∀ pixels : List Pixel, argumentLength pixels = 0 →
        (argumentSpans pixels).1 = [] :=
      fun pixels hstop => by rw [argumentSpans_stop hstop]
    cases hshape : shapeOf scope (p :: rest) with
    | string | number | boolean | empty => rfl
    | compound =>
      rw [shapeOf_eq_compound_iff, hop] at hshape
      contradiction
    | construct =>
      obtain ⟨m, hm, -⟩ := exists_struct_of_shapeOf hshape
      rw [argumentLength_name (Scope.isName_of_member? hm), List.length_cons, Nat.add_comm] at h
      exact hnested rest (argumentLength_of_dottedTail (Nat.succ.inj h))
    | call =>
      refine hnested _ ?_
      have hp := not_isCharacter_of_shapeOf hshape
      have hall : rest.length ≤ (dottedTail rest).length := by
        simp only [argumentLength, hp, List.length_cons] at h
        grind
      rw [List.drop_of_length_le hall]
      rfl

/-- Slices of these pixels nest less than `depth` deep. -/
def Shallow (scope : Scope) : (depth : Nat) → List Pixel → Prop
  | 0, _ => False
  | depth + 1, pixels => ∀ slice ∈ slicesOf (shapeOf scope pixels) pixels, Shallow scope depth slice

theorem Shallow.succ {scope : Scope} {depth : Nat} {pixels : List Pixel}
    (h : Shallow scope depth pixels) : Shallow scope (depth + 1) pixels := by
  induction depth generalizing pixels with
  | zero => exact h.elim
  | succ depth ih => exact fun slice hslice => ih (h slice hslice)

/-- How deep slices may nest changes nothing, where they nest less deep. -/
theorem Reader.Alike.evalSlice {scope : Scope} {depth : Nat} {r r' : Reader} (h : Alike r r')
    (hshallow : Shallow scope depth r.remaining) {e e' : Nat} (he : depth ≤ e) (he' : depth ≤ e') :
    SameResult (evalSlice scope e r) (evalSlice scope e' r') := by
  induction depth generalizing r r' e e' with
  | zero => exact hshallow.elim
  | succ depth ih =>
    obtain ⟨e, rfl⟩ : ∃ n, e = n + 1 := ⟨e - 1, by omega⟩
    obtain ⟨e', rfl⟩ : ∃ n, e' = n + 1 := ⟨e' - 1, by omega⟩
    rw [Reader.evalSlice, Reader.evalSlice, analyze, analyze, ← h.remaining]
    refine h.readWith scope _ fun s s' hs hmem => ?_
    exact ih hs (hshallow _ hmem) (Nat.le_of_succ_le_succ he) (Nat.le_of_succ_le_succ he')

theorem isOperator_of_mem_segment {pixels segment : List Pixel} {p : Pixel}
    (h : segment ∈ slicesOf .compound pixels) (hp : p ∈ segment) : p.isOperator = false := by
  induction pixels generalizing segment with
  | nil =>
    simp only [slicesOf, splitOperators, List.map_nil, List.mem_singleton] at h
    rw [h] at hp
    exact absurd hp List.not_mem_nil
  | cons q rest ih =>
    simp only [slicesOf, splitOperators] at h ih
    cases hq : q.operator? with
    | some op =>
      simp only [hq, List.map_cons] at h
      rcases List.mem_cons.1 h with rfl | hmem
      · exact absurd hp List.not_mem_nil
      · exact ih hmem hp
    | none =>
      simp only [hq] at h
      rcases List.mem_cons.1 h with rfl | hmem
      · rcases List.mem_cons.1 hp with rfl | hp
        · rw [Pixel.isOperator, hq]
          rfl
        · exact ih (.head _) hp
      · exact ih (.tail _ hmem) hp

/-- Without operators, the slices are arguments. -/
theorem exists_argumentSpans_of_slice {scope : Scope} {pixels slice : List Pixel}
    (hop : ∀ p ∈ pixels, p.isOperator = false)
    (h : slice ∈ slicesOf (shapeOf scope pixels) pixels) :
    ∃ pixels' : List Pixel, pixels' ⊆ pixels ∧ slice ∈ (argumentSpans pixels').1 := by
  cases pixels with
  | nil => exact absurd h List.not_mem_nil
  | cons p rest =>
    cases hshape : shapeOf scope (p :: rest) with
    | string | number | boolean | empty =>
      rw [hshape] at h
      exact absurd h List.not_mem_nil
    | compound =>
      obtain ⟨q, hq, hqop⟩ := List.any_eq_true.1 (shapeOf_eq_compound_iff.1 hshape)
      rw [hop q hq] at hqop
      contradiction
    | construct =>
      rw [hshape] at h
      exact ⟨rest, List.subset_cons_self _ _, h⟩
    | call =>
      rw [hshape] at h
      exact ⟨_, fun q hq => .tail _ (List.mem_of_mem_drop hq), h⟩

/-- Without operators, the slices have no slices. -/
theorem slicesOf_slice {scope : Scope} {pixels slice : List Pixel}
    (hop : ∀ p ∈ pixels, p.isOperator = false)
    (h : slice ∈ slicesOf (shapeOf scope pixels) pixels) :
    slicesOf (shapeOf scope slice) slice = [] := by
  obtain ⟨pixels', hsub, hspan⟩ := exists_argumentSpans_of_slice hop h
  refine slicesOf_argument scope (argumentLength_span hspan) (List.any_eq_false.2 fun p hp => ?_)
  simp [hop p (hsub (mem_of_mem_span hspan hp))]

theorem shallow_of_not_isOperator (scope : Scope) {pixels : List Pixel}
    (hop : ∀ p ∈ pixels, p.isOperator = false) : Shallow scope 2 pixels := by
  intro slice hslice inner hinner
  rw [slicesOf_slice hop hslice] at hinner
  exact absurd hinner List.not_mem_nil

/-- Slices nest at most three deep: an argument, an operand in it and an argument of that. -/
theorem shallow (scope : Scope) (pixels : List Pixel) : Shallow scope sliceDepth pixels := by
  cases hop : pixels.any Pixel.isOperator with
  | true =>
    intro slice hslice
    rw [shapeOf_eq_compound_iff.2 hop] at hslice
    exact shallow_of_not_isOperator scope fun p hp => isOperator_of_mem_segment hslice hp
  | false =>
    refine (shallow_of_not_isOperator scope fun p hp => ?_).succ
    simpa using List.any_eq_false.1 hop p hp

namespace Reader

/-- An expression is read as its shape says, each slice of it by `eval`. -/
theorem Alike.evalAs {r r' : Reader} (h : Alike r r') (scope : Scope) (shape : Shape) :
    SameResult (r.evalAs scope shape) (r'.readWith scope (eval scope) shape) :=
  h.readWith scope shape fun _ _ hs _ =>
    hs.evalSlice (shallow scope _) (Nat.le_refl _) (Nat.le_succ _)

/-- Readers that are alike read the same expression. -/
theorem Alike.eval {r r' : Reader} (h : Alike r r') (scope : Scope) :
    SameResult (r.eval scope) (r'.eval scope) :=
  h.evalSlice (shallow scope _) (Nat.le_succ _) (Nat.le_succ _)

end Reader

end PixelLang
