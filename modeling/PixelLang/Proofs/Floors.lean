import PixelLang.Proofs.Stretches

/-!
# Under a block

Names are bound in the innermost frame, and frames are left from the inside. So nothing under an
open block changes before the block is left, whatever the statements in it bind, open or report.

`Scope.Within base n` are the scopes inside a block that was opened in the scope `base`, with `n`
more blocks open in that block.

* `State.held_passed`: entries that close only blocks of their own stay within the block.
* `State.scope_block`: after a whole block the scope is the one in which the block was opened.
-/

set_option autoImplicit false

namespace PixelLang

/-! ## Counting open blocks -/

/-- The number of open blocks after a keyword; none if it closes a block that is not counted. -/
def blockCount (n : Nat) (k : Keyword) : Option Nat :=
  match k, n with
  | .blockOpen, n => some (n + 1)
  | .blockClose, 0 => none
  | .blockClose, n + 1 => some n
  | _, n => some n

/-- The number of open blocks after some keywords. -/
def openAfter (n : Nat) (ks : List Keyword) : Option Nat := ks.foldlM blockCount n

theorem openAfter_cons (n : Nat) (k : Keyword) (ks : List Keyword) :
    openAfter n (k :: ks) = (blockCount n k).bind (openAfter · ks) := rfl

theorem openAfter_append (n : Nat) (ks ks' : List Keyword) :
    openAfter n (ks ++ ks') = (openAfter n ks).bind (openAfter · ks') :=
  List.foldlM_append

theorem blockCount_of_ne {k : Keyword} (hopen : k ≠ .blockOpen) (hclose : k ≠ .blockClose)
    (n : Nat) : blockCount n k = some n := by
  cases k <;> first | rfl | contradiction

/-! ## Settling over a block -/

section
variable {α : Type} {temporary : α → Bool} {block : α} (hblock : temporary block = false)
include hblock

theorem dropWhile_over (inner outer : List α) :
    (inner ++ block :: outer).dropWhile temporary =
      inner.dropWhile temporary ++ block :: outer := by
  induction inner with
  | nil => simp [hblock]
  | cons frame inner ih => cases h : temporary frame <;> simp [h, ih]

theorem dropTemporary_over (inner outer : List α) :
    dropTemporary temporary (inner ++ block :: outer) =
      dropTemporary temporary inner ++ block :: outer := by
  cases inner with
  | nil => simp [dropTemporary, hblock]
  | cons frame inner => cases h : temporary frame <;> simp [dropTemporary, h]

omit hblock in
theorem countP_dropWhile (inner : List α) :
    (inner.dropWhile temporary).countP (!temporary ·) = inner.countP (!temporary ·) := by
  induction inner with
  | nil => rfl
  | cons frame inner ih => cases h : temporary frame <;> simp [h, ih]

omit hblock in
theorem countP_dropTemporary (inner : List α) :
    (dropTemporary temporary inner).countP (!temporary ·) = inner.countP (!temporary ·) := by
  cases inner with
  | nil => rfl
  | cons frame inner => cases h : temporary frame <;> simp [dropTemporary, h]

omit hblock in
theorem dropWhile_eq_nil {inner : List α} (hn : inner.countP (!temporary ·) = 0) :
    inner.dropWhile temporary = [] := by
  rw [← List.isEmpty_iff, isEmpty_dropWhile]
  simpa [List.countP_eq_zero] using hn

/-- What is settled before anything but the end of a block lies inside the block. -/
theorem settledStack_over {k : Keyword} (hk : k ≠ .blockClose) (current : Option Keyword)
    (inner outer : List α) :
    ∃ inner', settledStack temporary (some k) current (inner ++ block :: outer) =
        inner' ++ block :: outer ∧
      inner'.countP (!temporary ·) = inner.countP (!temporary ·) := by
  have hcl : k.traits.closesBlock = false := by cases k <;> simp_all [Keyword.traits]
  simp only [settledStack, hcl, Bool.false_eq_true, ↓reduceIte, dropWhile_over hblock,
    dropTemporary_over hblock]
  repeat' split
  · exact ⟨inner, rfl, rfl⟩
  · exact ⟨_, rfl, countP_dropTemporary inner⟩
  · exact ⟨inner, rfl, rfl⟩
  · exact ⟨_, rfl, countP_dropWhile inner⟩

/-- The end of a block inside the block leaves that one. -/
theorem settledStack_over_close {n : Nat} (current : Option Keyword) (inner outer : List α)
    (hn : inner.countP (!temporary ·) = n + 1) :
    ∃ inner', settledStack temporary (some .blockClose) current (inner ++ block :: outer) =
        inner' ++ block :: outer ∧ inner'.countP (!temporary ·) = n := by
  rw [settledStack_close, dropWhile_over hblock]
  rw [← countP_dropWhile] at hn
  cases hinner : inner.dropWhile temporary with
  | nil => simp [hinner] at hn
  | cons frame rest =>
    have hframe : temporary frame = false := by
      have hhead := List.head?_dropWhile_not temporary inner
      simpa [hinner] using hhead
    have hrest : rest.countP (!temporary ·) = n := by simpa [hinner, hframe] using hn
    split
    · exact ⟨rest, rfl, hrest⟩
    · exact ⟨_, dropWhile_over hblock rest outer, (countP_dropWhile rest).trans hrest⟩

/-- The end of the block itself leaves the frames under it, and before an `else` all of them. -/
theorem settledStack_over_last (current : Option Keyword) (inner outer : List α)
    (hn : inner.countP (!temporary ·) = 0) :
    settledStack temporary (some .blockClose) current (inner ++ block :: outer) =
      if current = some .orElse then outer else outer.dropWhile temporary := by
  rw [settledStack_close, dropWhile_over hblock, dropWhile_eq_nil hn]
  rfl

end

/-! ## Scopes inside a block -/

namespace Scope

/-- What binding one name keeps, binding many keeps. -/
theorem defineAll_of_define {P : Scope → Prop}
    (hdefine : ∀ (s : Scope) (key : String) (m : Member), P s → P (s.define key m)) {s : Scope}
    (h : P s) (entries : List (String × Member)) : P (s.defineAll entries) :=
  List.foldlRecOn entries _ h fun s hs entry _ => hdefine s entry.1 entry.2 hs

/-- The scope is inside a block over the frames of `base`, with `n` blocks more inside that one. -/
def Within (base : Scope) (n : Nat) (s : Scope) : Prop :=
  ∃ inner block, s = { base with frames := inner ++ block :: base.frames } ∧
    block.temporary = false ∧ inner.countP (!·.temporary) = n

variable {base s : Scope} {n : Nat}

theorem Within.define (h : Within base n s) (key : String) (m : Member) :
    Within base n (s.define key m) := by
  obtain ⟨inner, block, rfl, hblock, hn⟩ := h
  cases inner with
  | nil => exact ⟨[], { block with members := block.members.insert key m }, rfl, hblock, hn⟩
  | cons frame inner =>
    refine ⟨{ frame with members := frame.members.insert key m } :: inner, block, rfl, hblock, ?_⟩
    rw [← hn, List.countP_cons, List.countP_cons]

theorem Within.defineAll (h : Within base n s) (entries : List (String × Member)) :
    Within base n (s.defineAll entries) :=
  defineAll_of_define (P := Within base n) (fun _ key m h => h.define key m) h entries

theorem Within.push (h : Within base n s) (owner : Option Owner) (temporary : Bool) :
    Within base (if temporary then n else n + 1) (s.push owner temporary) := by
  obtain ⟨inner, block, rfl, hblock, rfl⟩ := h
  refine ⟨⟨owner, temporary, .empty⟩ :: inner, block, rfl, hblock, ?_⟩
  cases temporary <;> simp

theorem within_push (s : Scope) (owner : Option Owner) : Within s 0 (s.push owner false) :=
  ⟨[], _, rfl, rfl, rfl⟩

end Scope

open Scope (Within)

/-- What binding one name keeps, the names of a statement keep. -/
theorem State.bound_of_define {P : Scope → Prop}
    (hdefine : ∀ (s : Scope) (key : String) (m : Member), P s → P (s.define key m)) {s : State}
    (h : P s.scope) (ctx : Context) (g : Generated) : P (s.bound ctx g) := by
  have hall := Scope.defineAll_of_define hdefine h g.definitions
  unfold bound
  dsimp only
  repeat' split
  · exact hdefine _ _ _ hall
  · exact hall
  · exact hall

namespace Visit

variable {base : Scope} {n : Nat} {v : Visit}

theorem opening?_blockOpen (ctx : Context) : State.opening? ctx .blockOpen = some false := rfl

theorem opening?_ne {k : Keyword} (hk : k ≠ .blockOpen) (ctx : Context) :
    State.opening? ctx k = none ∨ State.opening? ctx k = some true := by
  have hopens : k.traits.opensBlock = false := by cases k <;> simp_all [Keyword.traits]
  simp only [State.opening?, hopens, Bool.false_eq_true, ↓reduceIte]
  split
  · exact .inr rfl
  · exact .inl rfl

/-- A statement inside a block changes nothing under the block. -/
theorem within_after (h : Within base n v.state.scope) :
    Within base (if v.entry.keyword = .blockOpen then n + 1 else n) v.after.scope := by
  have hbound : Within base n (v.state.bound v.context v.generated) :=
    State.bound_of_define (P := Within base n) (fun _ key m h => h.define key m) h _ _
  rw [scope_after, State.scopeAfter]
  by_cases hk : v.entry.keyword = .blockOpen
  · rw [if_pos hk, hk, opening?_blockOpen]
    exact (hbound.push _ false).defineAll _
  · rw [if_neg hk]
    rcases opening?_ne hk v.context with hopen | hopen <;> rw [hopen]
    · exact hbound
    · exact hbound.push _ true

end Visit

namespace State

/-- However the scope is settled after `previous`, it is inside the block over `base`. -/
def Held (base : Scope) (n : Nat) (previous : Option Keyword) (s : State) : Prop :=
  ∀ current, Within base n (s.settle previous current).scope

variable {base : Scope} {n m : Nat} {previous : Option Keyword} {s : State}

theorem held_of_within {k : Keyword} (hk : k ≠ .blockClose) (h : Within base n s.scope) :
    Held base n (some k) s := by
  intro current
  obtain ⟨inner, block, hs, hblock, rfl⟩ := h
  obtain ⟨inner', heq, hcount⟩ :=
    settledStack_over hblock hk current inner base.frames
  rw [scope_settle, hs]
  exact ⟨inner', block, by rw [heq], hblock, hcount⟩

theorem held_of_within_close (h : Within base (n + 1) s.scope) :
    Held base n (some .blockClose) s := by
  intro current
  obtain ⟨inner, block, hs, hblock, hn⟩ := h
  obtain ⟨inner', heq, hcount⟩ :=
    settledStack_over_close hblock current inner base.frames hn
  rw [scope_settle, hs]
  exact ⟨inner', block, by rw [heq], hblock, hcount⟩

/-- The end of the block leaves `base`, without its innermost temporary frames unless an `else`
follows. -/
theorem scope_settle_last (h : Within base 0 s.scope) (current : Option Keyword) :
    (s.settle (some .blockClose) current).scope =
      { base with
        frames := if current = some .orElse then base.frames
          else base.frames.dropWhile (·.temporary) } := by
  obtain ⟨inner, block, hs, hblock, hn⟩ := h
  rw [scope_settle, hs,
    settledStack_over_last hblock current inner base.frames hn]

/-- A visit counts the blocks. -/
theorem held_visit (h : Held base n previous s) (e : Entry) (rest : List Entry)
    (hcount : blockCount n e.keyword = some m) :
    Held base m (some e.keyword) (s.visit previous e rest).after := by
  have hafter := Visit.within_after (v := s.visit previous e rest) (h (some e.keyword))
  rw [show (s.visit previous e rest).entry = e from rfl] at hafter
  by_cases hclose : e.keyword = .blockClose
  · rw [hclose] at hcount hafter ⊢
    cases n with
    | zero => cases hcount
    | succ n =>
      obtain rfl : n = m := Option.some.inj hcount
      exact held_of_within_close hafter
  · refine held_of_within hclose ?_
    by_cases hopen : e.keyword = .blockOpen
    · rw [hopen] at hcount hafter
      obtain rfl : n + 1 = m := Option.some.inj hcount
      exact hafter
    · rw [if_neg hopen] at hafter
      rw [blockCount_of_ne hopen hclose] at hcount
      obtain rfl : n = m := Option.some.inj hcount
      exact hafter

/-- **A stretch inside a block** changes nothing under the block. -/
theorem held_passed {q : List Entry} (hcount : openAfter n (q.map Entry.keyword) = some m)
    (h : Held base n previous s) (rest : List Entry) :
    Held base m (lastKeyword previous q) (passed rest previous q s) := by
  induction q generalizing previous s n with
  | nil =>
    obtain rfl : n = m := Option.some.inj hcount
    exact h
  | cons e q ih =>
    rw [List.map_cons, openAfter_cons] at hcount
    obtain ⟨n', hn', hcount⟩ := Option.bind_eq_some_iff.1 hcount
    exact ih hcount (held_visit h e (q ++ rest) hn')

/-- The entry that opens a block binds names around the block, and its parameters in it. -/
theorem scope_after_blockOpen {v : Visit} (hk : v.entry.keyword = .blockOpen) :
    v.after.scope =
      ((v.state.bound v.context v.generated).push (some (entryOwner v.context v.entry))
        false).defineAll v.generated.parameters := by
  rw [Visit.scope_after, scopeAfter, hk]
  rfl

/-- The entry that opens a block leaves the scope around the block under it. -/
theorem held_opener {opener : Entry} (hopen : opener.keyword = .blockOpen) (rest : List Entry) :
    let v := s.visit previous opener rest
    Held (v.state.bound v.context v.generated) 0 (some opener.keyword) v.after := by
  intro v
  refine held_of_within (by rw [hopen]; nofun) ?_
  rw [scope_after_blockOpen (v := v) hopen]
  exact (Scope.within_push _ _).defineAll _

/-- **A whole block** leaves the scope in which it was opened, with all names bound there. -/
theorem scope_block {opener closer : Entry} {inner : List Entry}
    (hopen : opener.keyword = .blockOpen) (hclose : closer.keyword = .blockClose)
    (hinner : openAfter 0 (inner.map Entry.keyword) = some 0) (rest : List Entry)
    (current : Option Keyword) :
    let v := s.visit previous opener (inner ++ [closer] ++ rest)
    let base := v.state.bound v.context v.generated
    ((passed rest previous (opener :: (inner ++ [closer])) s).settle (some .blockClose)
        current).scope =
      { base with
        frames := if current = some .orElse then base.frames
          else base.frames.dropWhile (·.temporary) } := by
  intro v base
  have hheld : Held base 0 (some opener.keyword) v.after := held_opener hopen _
  have hend := held_passed hinner hheld ([closer] ++ rest)
  let w := (passed ([closer] ++ rest) (some opener.keyword) inner v.after).visit
    (lastKeyword (some opener.keyword) inner) closer rest
  have hlast := Visit.within_after (v := w) (hend (some closer.keyword))
  rw [show w.entry.keyword = .blockClose from hclose, if_neg nofun] at hlast
  rw [show passed rest previous (opener :: (inner ++ [closer])) s =
    passed rest (some opener.keyword) (inner ++ [closer]) v.after from rfl, passed_append]
  exact scope_settle_last hlast current

end State

end PixelLang
