import PixelLang.Proofs.Slices

/-!
# Token numbers

A reader numbers its tokens from its origin and names its statement in every diagnostic. Nothing is
decided by these: a reader with another numbering reads the same expression and reports the same,
with its own numbers and its own statement.

* `Numbering`, `Reader.renumber`: another numbering of a reader and of all it has reported.
* `Reader.readWith_renumber`: reading commutes with renumbering where reading the slices does.
* `evalWithin`: the slices of slices of slices are read in any way at all. `eval_eq_evalWithin`:
  this changes nothing, since slices nest at most two deep.
-/

set_option autoImplicit false

namespace PixelLang

/-- Another numbering of tokens: further on, and for another statement. -/
structure Numbering where
  shift : Nat
  keyword : Option Keyword → Option Keyword

namespace Numbering

/-- The numbering of a reader as it is. -/
def same : Numbering := ⟨0, id⟩

/-- The tokens of a statement from a number on. -/
def within (keyword : Option Keyword) (shift : Nat) : Numbering := ⟨shift, fun _ => keyword⟩

end Numbering

def Diagnostic.renumber (n : Numbering) (d : Diagnostic) : Diagnostic :=
  { d with tokenIndex := d.tokenIndex + n.shift, keyword := n.keyword d.keyword }

namespace Reader

/-- The reader and its diagnostics in another numbering. -/
def renumber (n : Numbering) (r : Reader) : Reader :=
  { r with
    origin := r.origin + n.shift
    keyword := n.keyword r.keyword
    diagnostics := r.diagnostics.map (·.renumber n) }

/-- A result of reading, with the reader in another numbering. -/
def renumbered {α : Type} (n : Numbering) (x : α × Reader) : α × Reader := (x.1, x.2.renumber n)

theorem renumber_same (r : Reader) : r.renumber .same = r := by
  have hid : r.diagnostics.map (·.renumber .same) = r.diagnostics := List.map_id _
  rw [renumber, hid]
  rfl

section
variable (n : Numbering) (r : Reader)

/-! ## Single steps -/

@[simp]
theorem remaining_renumber : (r.renumber n).remaining = r.remaining := rfl

@[simp]
theorem index_renumber : (r.renumber n).index = r.index := rfl

@[simp]
theorem peek_renumber : (r.renumber n).peek = r.peek := rfl

@[simp]
theorem advance_renumber (count : Nat) :
    (r.renumber n).advance count = (r.advance count).renumber n := rfl

@[simp]
theorem skipToEnd_renumber : (r.renumber n).skipToEnd = r.skipToEnd.renumber n := rfl

theorem locate_renumber (problem : Problem) (target : Target) (template : Option Template) :
    (r.renumber n).locate problem target template =
      (r.locate problem target template).renumber n := by
  have hnumber : r.origin + n.shift + r.targetPosition target =
      r.origin + r.targetPosition target + n.shift := by omega
  simp only [locate, Diagnostic.renumber, ← hnumber]
  rfl

@[simp]
theorem report_renumber (problem : Problem) (target : Target) :
    (r.renumber n).report problem target = (r.report problem target).renumber n := by
  rw [report, locate_renumber, report]
  simp [record, renumber]

@[simp]
theorem absorb_renumber (s : Reader) :
    (r.renumber n).absorb (s.renumber n) = (r.absorb s).renumber n := by
  simp [absorb, renumber]

@[simp]
theorem slice_renumber (start stop : Nat) :
    (r.renumber n).slice start stop = (r.slice start stop).renumber n := by
  have hnumber : r.origin + n.shift + min start (min stop r.length) =
      r.origin + min start (min stop r.length) + n.shift := by omega
  simp only [slice, renumber, List.map_nil, ← hnumber]
  rfl

theorem next_renumber : (r.renumber n).next = renumbered n r.next := by
  rw [next, next, peek_renumber]
  split <;> rfl

theorem nextSequence_renumber :
    (r.renumber n).nextSequence = renumbered n r.nextSequence := by
  rw [nextSequence, nextSequence, remaining_renumber]
  split
  · rfl
  · dsimp only
    split <;> simp [renumbered]

theorem checkResolves_renumber (scope : Scope) (p : Pixel) (position : Nat) :
    (r.renumber n).checkResolves scope p position =
      renumbered n (r.checkResolves scope p position) := by
  rw [checkResolves, checkResolves]
  split <;> simp [renumbered]

theorem finish_renumber : (r.renumber n).finish = r.finish.renumber n := by
  rw [finish, finish, peek_renumber]
  split
  · rw [report_renumber, skipToEnd_renumber]
    rfl
  · rfl

theorem checkArity_renumber (m : Member) (name : String) (found start : Nat) :
    (r.renumber n).checkArity m name found start =
      (r.checkArity m name found start).renumber n := by
  rw [checkArity, checkArity]
  split <;> simp

/-! ## Literals -/

theorem stringParts_renumber (scope : Scope) (fuel : Nat) (parts : List StringPart)
    (text : List Char) :
    (r.renumber n).stringParts scope fuel parts text =
      renumbered n (r.stringParts scope fuel parts text) := by
  induction fuel generalizing parts text r with
  | zero => rfl
  | succ fuel ih =>
    rw [stringParts, stringParts, peek_renumber]
    cases r.peek with
    | none => rfl
    | some p =>
      dsimp only
      cases p.character? with
      | some code =>
        dsimp only
        split
        · exact ih (r.advance 1) _ _
        · exact ih (r.advance 1) _ _
      | none =>
        dsimp only
        rw [nextSequence_renumber]
        rcases r.nextSequence with ⟨_ | s, t⟩
        · rfl
        · have hcheck := checkResolves_renumber n t scope s.first r.index
          rcases hc : t.checkResolves scope s.first r.index with ⟨_ | _, u⟩
          all_goals
            rw [hc] at hcheck
            simp only [renumbered, index_renumber, hcheck, hc]
            exact ih u _ _

theorem readString_renumber (scope : Scope) :
    (r.renumber n).readString scope = renumbered n (r.readString scope) := by
  rw [readString, readString, remaining_renumber, stringParts_renumber]
  rfl

theorem foldl_numberStep_renumber (pixels : List Pixel) (digits : List Char) :
    pixels.foldl numberStep (digits, r.renumber n) =
      renumbered n (pixels.foldl numberStep (digits, r)) := by
  induction pixels generalizing digits r with
  | nil => rfl
  | cons p pixels ih =>
    rw [List.foldl_cons, List.foldl_cons, numberStep, numberStep]
    cases p.character? with
    | some code => exact ih (r.advance 1) _
    | none =>
      dsimp only
      rw [advance_renumber, report_renumber]
      exact ih _ _

theorem readNumber_renumber : (r.renumber n).readNumber = renumbered n r.readNumber := by
  rw [readNumber, readNumber, remaining_renumber, foldl_numberStep_renumber]
  rfl

theorem readBoolean_renumber : (r.renumber n).readBoolean = renumbered n r.readBoolean := by
  rw [readBoolean, readBoolean, next_renumber]
  rcases r.next with ⟨_ | p, t⟩
  · rfl
  · dsimp only [renumbered]
    cases p.boolean? with
    | some value => rfl
    | none => simp

end

/-! ## Slices -/

/-- The slices of these pixels are read in the same way in both numberings. -/
def Carries (n : Numbering) (slices : List (List Pixel)) (nested nested' : SliceReader) : Prop :=
  ∀ s : Reader, s.remaining ∈ slices → nested' (s.renumber n) = renumbered n (nested s)

section
variable {n : Numbering} {r : Reader} {nested nested' : SliceReader}

theorem readSlice_renumber {start stop : Nat}
    (h : nested' ((r.slice start stop).renumber n) = renumbered n (nested (r.slice start stop))) :
    (r.renumber n).readSlice nested' start stop = renumbered n (r.readSlice nested start stop) := by
  rw [readSlice, readSlice, slice_renumber, h]
  simp [renumbered]

theorem readArguments_renumber (fuel : Nat)
    (hn : Carries n (argumentSpans r.remaining).1 nested nested') :
    (r.renumber n).readArguments nested' fuel = renumbered n (r.readArguments nested fuel) := by
  induction fuel generalizing r with
  | zero => rfl
  | succ fuel ih =>
    rw [readArguments, readArguments, remaining_renumber]
    dsimp only
    split
    · rfl
    · rename_i hcount
      rw [argumentSpans_step hcount] at hn
      have hspan : (r.slice r.index (r.index + argumentLength r.remaining)).remaining =
          r.remaining.take (argumentLength r.remaining) := by
        simpa using r.remaining_slice 0 (argumentLength r.remaining)
      have hslice := readSlice_renumber (r := r.advance (argumentLength r.remaining))
        (hn (r.slice r.index (r.index + argumentLength r.remaining)) (hspan ▸ .head _))
      rw [index_renumber, advance_renumber, hslice]
      rcases he : (r.advance (argumentLength r.remaining)).readSlice nested r.index
        (r.index + argumentLength r.remaining) with ⟨e, t⟩
      have hremaining : t.remaining = r.remaining.drop (argumentLength r.remaining) := by
        simpa using (congrArg (·.2.remaining) he).symm
      have hrest := ih (r := t) (hremaining ▸ fun s hs => hn s (.tail _ hs))
      cases hempty : e.isEmpty <;> simp [renumbered, hempty, hrest]

theorem readApplied_renumber (hn : Carries n (argumentSpans r.remaining).1 nested nested')
    (m : Member) (name : String) (start : Nat) :
    (r.renumber n).readApplied nested' m name start =
      renumbered n (r.readApplied nested m name start) := by
  rw [readApplied, readApplied, remaining_renumber, readArguments_renumber _ hn]
  simp only [renumbered, checkArity_renumber]

theorem readCallOf_renumber (hn : Carries n (argumentSpans r.remaining).1 nested nested')
    (scope : Scope) (s : Sequence) (start : Nat) :
    (r.renumber n).readCallOf scope nested' s start =
      renumbered n (r.readCallOf scope nested s start) := by
  rw [readCallOf, readCallOf]
  cases scope.callable? s with
  | some m =>
    dsimp only
    rw [readApplied_renumber hn]
    rfl
  | none =>
    have hnext : (r.renumber n).hasNext = r.hasNext := rfl
    dsimp only
    rw [hnext, index_renumber, report_renumber]
    split <;> rfl

theorem readCall_renumber (scope : Scope)
    (hn : Carries n (slicesOf .call r.remaining) nested nested') :
    (r.renumber n).readCall scope nested' = renumbered n (r.readCall scope nested) := by
  rw [readCall, readCall, nextSequence_renumber]
  cases hps : r.remaining with
  | nil =>
    rw [nextSequence, hps]
    rfl
  | cons first rest =>
    obtain ⟨t, ht, hremaining, -⟩ := r.nextSequence_cons hps
    have hcheck := checkResolves_renumber n t scope first r.index
    have hleft := t.remaining_checkResolves scope first r.index
    rw [ht]
    rcases hc : t.checkResolves scope first r.index with ⟨_ | _, u⟩
    all_goals
      rw [hc] at hcheck hleft
      simp only [renumbered, index_renumber, hcheck, hc]
    · rfl
    · refine readCallOf_renumber ?_ scope _ _
      rw [hleft, hremaining]
      rwa [hps] at hn

theorem readConstruct_renumber (scope : Scope)
    (hn : Carries n (slicesOf .construct r.remaining) nested nested') :
    (r.renumber n).readConstruct scope nested' = renumbered n (r.readConstruct scope nested) := by
  rw [readConstruct, readConstruct, next_renumber]
  cases hps : r.remaining with
  | nil =>
    rw [next, peek_eq_head?, hps]
    rfl
  | cons p rest =>
    rw [r.next_cons hps]
    dsimp only [renumbered]
    split
    · have hadvance : Carries n (argumentSpans (r.advance 1).remaining).1 nested nested' := by
        rw [hps] at hn
        rwa [remaining_advance, hps]
      rw [readApplied_renumber hadvance]
      rfl
    · rw [report_renumber]
      rfl

theorem readOperands_renumber {more : List (Operator × List Pixel)} (before : Option Operator)
    (offset : Nat) {segment : List Pixel}
    (hsplit : splitOperators (r.remaining.drop offset) = (segment, more))
    (hn : Carries n (segment :: more.map fun segment => segment.2) nested nested') :
    (r.renumber n).readOperands nested' more before (r.index + offset) segment.length =
      renumbered n (r.readOperands nested more before (r.index + offset) segment.length) := by
  induction more generalizing before offset segment r with
  | nil =>
    have hslice := readSlice_renumber (hn _ (by rw [remaining_operand hsplit]; exact .head _))
    rw [readOperands, readOperands, hslice]
    dsimp only [renumbered]
    split
    · split <;> simp
    · rfl
  | cons head more ih =>
    obtain ⟨op, segment'⟩ := head
    have hslice := readSlice_renumber (hn _ (by rw [remaining_operand hsplit]; exact .head _))
    -- the slice moves no cursor, so the next operand starts after the operator
    have hnext : splitOperators (r.remaining.drop (offset + segment.length + 1)) =
        (segment', more) := by
      have hdrop := drop_splitOperators (congrArg Prod.snd hsplit)
      rwa [hsplit, List.drop_drop, ← Nat.add_assoc] at hdrop
    have hrest := ih (r := (r.readSlice nested (r.index + offset)
      (r.index + offset + segment.length)).2) (some op) (offset + segment.length + 1) hnext
      fun s hs => hn s (.tail _ hs)
    simp only [index_readSlice, ← Nat.add_assoc] at hrest
    rw [readOperands, readOperands, hslice]
    dsimp only [renumbered]
    rw [hrest]
    rfl

theorem readCompound_renumber (hn : Carries n (slicesOf .compound r.remaining) nested nested') :
    (r.renumber n).readCompound nested' = renumbered n (r.readCompound nested) := by
  have hread := readOperands_renumber none 0 rfl hn
  rw [List.drop_zero, Nat.add_zero] at hread
  rw [readCompound, readCompound, remaining_renumber, index_renumber]
  dsimp only
  rw [hread]
  rfl

/-! ## Whole expressions -/

theorem readWith_renumber (scope : Scope) (shape : Shape)
    (hn : Carries n (slicesOf shape r.remaining) nested nested') :
    (r.renumber n).readWith scope nested' shape = renumbered n (r.readWith scope nested shape) := by
  have hread : (r.renumber n).readShape scope nested' shape =
      renumbered n (r.readShape scope nested shape) := by
    cases shape with
    | string => exact readString_renumber n r scope
    | number => exact readNumber_renumber n r
    | boolean => exact readBoolean_renumber n r
    | call => exact readCall_renumber scope hn
    | construct => exact readConstruct_renumber scope hn
    | compound => exact readCompound_renumber hn
    | empty => rfl
  rw [readWith, hread, readWith]
  simp only [renumbered, finish_renumber]

end

/-! ## How deep slices nest -/

/-- Reads an expression. Slices that nest `depth` deep or deeper are read by `deeper`. -/
def evalWithin (scope : Scope) (deeper : SliceReader) : (depth : Nat) → SliceReader
  | 0 => deeper
  | depth + 1 => fun r => r.readWith scope (evalWithin scope deeper depth) (r.analyze scope)

theorem evalSlice_eq_evalWithin (scope : Scope) (depth : Nat) :
    evalSlice scope depth = evalWithin scope (fun r => (.empty, r)) depth := by
  induction depth with
  | zero => rfl
  | succ depth ih =>
    funext r
    rw [evalSlice, ih]
    rfl

/-- Where slices nest less deep, deeper slices are not read. -/
theorem evalWithin_renumber {scope : Scope} (n : Numbering) {depth : Nat} {r : Reader}
    (h : Shallow scope depth r.remaining) (deeper deeper' : SliceReader) {e e' : Nat}
    (he : depth ≤ e) (he' : depth ≤ e') :
    evalWithin scope deeper' e' (r.renumber n) = renumbered n (evalWithin scope deeper e r) := by
  induction depth generalizing r e e' with
  | zero => exact h.elim
  | succ depth ih =>
    obtain ⟨e, rfl⟩ : ∃ d, e = d + 1 := ⟨e - 1, by omega⟩
    obtain ⟨e', rfl⟩ : ∃ d, e' = d + 1 := ⟨e' - 1, by omega⟩
    refine readWith_renumber scope _ fun s hs => ?_
    exact ih (h _ hs) (Nat.le_of_succ_le_succ he) (Nat.le_of_succ_le_succ he')

/-- Slices nest at most two deep, so it does not matter how deeper ones would be read. -/
theorem eval_eq_evalWithin (scope : Scope) (deeper : SliceReader) (r : Reader) :
    r.eval scope = evalWithin scope deeper sliceDepth r := by
  have hsame := evalWithin_renumber .same (shallow scope r.remaining) (fun r => (.empty, r)) deeper
    (Nat.le_succ sliceDepth) (Nat.le_refl sliceDepth)
  rw [← evalSlice_eq_evalWithin, renumber_same, renumbered, renumber_same] at hsame
  exact hsame.symm

/-- A slice is read as any reader of its pixels is, in its own numbering. -/
theorem evalSlice_renumber (scope : Scope) (n : Numbering) (r : Reader) :
    evalSlice scope sliceDepth (r.renumber n) = renumbered n (r.eval scope) := by
  rw [evalSlice_eq_evalWithin, eval_eq_evalWithin scope fun r => (.empty, r)]
  exact evalWithin_renumber n (shallow scope r.remaining) _ _ (Nat.le_refl _) (Nat.le_refl _)

end Reader

end PixelLang
