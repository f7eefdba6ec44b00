import PixelLang.Proofs.Floors
import PixelLang.Proofs.Leaving

/-!
# Matched blocks

The end of a block matches the innermost block that is still open before it (`openNumbers`). Between
the two the keywords open and close only blocks of their own (`exists_of_unmatched`), so all that
happens there happens inside the block: the scope around it stays as it was, and it is this scope
that is left when the block is closed (`Language.block_restores`).
-/

set_option autoImplicit false

namespace PixelLang

/-! ## The stretch between a block and its end -/

theorem blockCount_add {n m : Nat} {k : Keyword} (h : blockCount n k = some m) (more : Nat) :
    blockCount (n + more) k = some (m + more) := by
  cases k with
  | blockOpen =>
    obtain rfl : n + 1 = m := Option.some.inj h
    exact congrArg some (Nat.add_right_comm n more 1)
  | blockClose =>
    cases n with
    | zero => cases h
    | succ n =>
      obtain rfl : n = m := Option.some.inj h
      rw [Nat.add_right_comm]
      rfl
  | _ =>
    obtain rfl : n = m := Option.some.inj h
    rfl

/-- Blocks that are open before are still open after. -/
theorem openAfter_add {n m : Nat} {ks : List Keyword} (h : openAfter n ks = some m) (more : Nat) :
    openAfter (n + more) ks = some (m + more) := by
  induction ks generalizing n with
  | nil =>
    obtain rfl : n = m := Option.some.inj h
    rfl
  | cons k ks ih =>
    obtain ⟨n', hn', hks⟩ := Option.bind_eq_some_iff.1 ((openAfter_cons n k ks).symm.trans h)
    rw [openAfter_cons, blockCount_add hn' more]
    exact ih hks

section
variable {α : Type} (keyword : α → Keyword)

theorem unmatched_concat (items : List α) (a : α) :
    unmatched keyword (items ++ [a]) = bracketStep keyword (unmatched keyword items) a :=
  List.foldl_concat ..

/-- **The innermost open block** is opened in front of statements that close only blocks of their
own; the other open blocks are those that were open before it. -/
theorem exists_of_unmatched {items opened : List α} {a : α}
    (h : unmatched keyword items = a :: opened) :
    ∃ before inner, items = before ++ a :: inner ∧ unmatched keyword before = opened ∧
      openAfter 0 (inner.map keyword) = some 0 := by
  rcases List.eq_nil_or_concat items with rfl | ⟨items, b, rfl⟩
  · cases h
  rw [List.concat_eq_append, unmatched_concat] at h
  rw [List.concat_eq_append]
  by_cases hopen : keyword b = .blockOpen
  · simp only [bracketStep, hopen, List.cons.injEq] at h
    obtain ⟨rfl, rfl⟩ := h
    exact ⟨items, [], rfl, rfl, rfl⟩
  by_cases hclose : keyword b = .blockClose
  · -- the block that `b` closes lies inside the one of `a`
    simp only [bracketStep, hclose] at h
    obtain ⟨c, hc⟩ : ∃ c, unmatched keyword items = c :: a :: opened := by
      cases hu : unmatched keyword items with
      | nil => simp [hu] at h
      | cons c rest =>
        rw [hu] at h
        exact ⟨c, congrArg (c :: ·) h⟩
    obtain ⟨items', inner', rfl, hitems', hinner'⟩ := exists_of_unmatched hc
    obtain ⟨before, inner, rfl, hbefore, hinner⟩ := exists_of_unmatched hitems'
    have hopens : keyword c = .blockOpen := by
      have hmem := List.mem_cons_self (a := c) (l := a :: opened)
      rw [← hc] at hmem
      exact (mem_unmatched keyword hmem).2
    refine ⟨before, inner ++ c :: (inner' ++ [b]), by simp, hbefore, ?_⟩
    rw [List.map_append, openAfter_append, hinner, Option.bind_some, List.map_cons, openAfter_cons,
      hopens]
    show openAfter (0 + 1) ((inner' ++ [b]).map keyword) = some 0
    rw [List.map_append, openAfter_append, openAfter_add hinner' 1, Option.bind_some,
      List.map_singleton, hclose]
    rfl
  · have hsame : bracketStep keyword (unmatched keyword items) b = unmatched keyword items := by
      unfold bracketStep
      cases hk : keyword b <;> simp_all
    rw [hsame] at h
    obtain ⟨before, inner, rfl, hbefore, hinner⟩ := exists_of_unmatched h
    refine ⟨before, inner ++ [b], by simp, hbefore, ?_⟩
    rw [List.map_append, openAfter_append, hinner, Option.bind_some, List.map_singleton,
      openAfter_cons, blockCount_of_ne hopen hclose]
    rfl
termination_by items.length

end

/-- A block and the end that matches it, as a cut of the queue. -/
theorem exists_of_openNumbers {q : List Entry} {i j : Nat} {closer : Entry}
    (hcloser : q[j]? = some closer) (h : (openNumbers q j).head? = some i) :
    ∃ before opener inner rest, q = before ++ opener :: (inner ++ closer :: rest) ∧
      before.length = i ∧ (before ++ opener :: inner).length = j ∧
      opener.keyword = .blockOpen ∧ openAfter 0 (inner.map Entry.keyword) = some 0 := by
  obtain ⟨hj, hget⟩ := List.getElem?_eq_some_iff.1 hcloser
  rw [openNumbers, List.head?_map] at h
  obtain ⟨⟨opener, number⟩, hhead, rfl⟩ := Option.map_eq_some_iff.1 h
  obtain ⟨opened, hopened⟩ := List.head?_eq_some_iff.1 hhead
  obtain ⟨before, inner, hitems, -, hinner⟩ := exists_of_unmatched _ hopened
  have htake : q.take j = before.map (·.1) ++ opener :: inner.map (·.1) := by
    rw [← List.zipIdx_map_fst 0 q, ← List.map_take, hitems]
    simp
  have hlength : (before.map (·.1) ++ opener :: inner.map (·.1)).length = j := by
    rw [← htake, List.length_take_of_le (Nat.le_of_lt hj)]
  have hnumber : q.zipIdx[before.length]? = some (opener, number) := by
    have hlt : before.length < j := by
      rw [← hlength]
      simp
    rw [← List.getElem?_take_of_lt hlt, hitems]
    simp
  have hopens : opener.keyword = .blockOpen := by
    have hmem := List.mem_cons_self (a := (opener, number)) (l := opened)
    rw [← hopened] at hmem
    exact (mem_unmatched _ hmem).2
  refine ⟨before.map (·.1), opener, inner.map (·.1), q.drop (j + 1), ?_, ?_, hlength, hopens, ?_⟩
  · rw [← hget, ← List.drop_eq_getElem_cons hj, ← List.cons_append, ← List.append_assoc, ← htake,
      List.take_append_drop]
  · rw [List.getElem?_zipIdx] at hnumber
    simp at hnumber
    simp [hnumber]
  · rwa [List.map_map]

/-! ## Leaving a block -/

open Scope (Within)

namespace State

/-- In a block without blocks of its own, leaving the temporary frames and then the block leads to
the scope around it. -/
theorem popBlock_of_within {base : Scope} {s : State} (h : Within base 0 s.scope) :
    ∃ block : Frame, block.temporary = false ∧
      s.popTemporaries.scope = { base with frames := block :: base.frames } ∧
      s.popTemporaries.popBlock.scope = base := by
  obtain ⟨inner, block, hs, hblock, hn⟩ := h
  have htemporaries : s.popTemporaries.scope = { base with frames := block :: base.frames } := by
    obtain ⟨log, heq, -⟩ := leaves_popTemporaries s
    rw [heq, hs, dropWhile_over hblock, dropWhile_eq_nil hn]
    rfl
  refine ⟨block, hblock, htemporaries, ?_⟩
  obtain ⟨log, heq, -⟩ := leaves_popBlock s.popTemporaries
  rw [heq, htemporaries]
  rfl

theorem blockFrames_popTemporaries (s : State) :
    blockFrames s.popTemporaries.scope.outlines = blockFrames s.scope.outlines := by
  rw [Scope.outlines, (leaves_popTemporaries s).frames_eq, ← blockFrames_dropWhile s.scope.outlines,
    Scope.outlines, List.dropWhile_map]
  rfl

/-- After the end of a block, settling first leaves the block. -/
theorem settle_blockClose (current : Option Keyword) (s : State) :
    s.settle (some .blockClose) current =
      if current = some .orElse then s.popTemporaries.popBlock
      else s.popTemporaries.popBlock.popTemporaries := by
  simp [settle, Keyword.traits, Traits.opens, bodyFollows]

end State

namespace Language

variable {l : Language} {pixels : List Pixel} {i j : Nat} {v w : Visit}

/-- **Inside a block**: a visit after the one that opens the block, before its end, is in a scope
over the one around the block. -/
theorem within_visits {before inner rest : List Entry} {opener e : Entry} {n : Nat}
    (hqueue : enqueue (subdivide pixels) = before ++ opener :: (inner ++ e :: rest))
    (hopen : opener.keyword = .blockOpen)
    (hcount : openAfter 0 (inner.map Entry.keyword) = some n)
    (hv : (l.visits pixels)[before.length]? = some v)
    (hw : (l.visits pixels)[(before ++ opener :: inner).length]? = some w) :
    Within (v.state.bound v.context v.generated) n w.state.scope := by
  let start := l.startState (subdivide pixels)
  have hfirst := State.getElem?_visits none before opener (inner ++ e :: rest) start
  have hlast := State.getElem?_visits none (before ++ opener :: inner) e rest start
  rw [← hqueue, ← visits, hv] at hfirst
  rw [List.append_assoc, List.cons_append, ← hqueue, ← visits, hw] at hlast
  obtain rfl := Option.some.inj hfirst
  obtain rfl := Option.some.inj hlast
  show Within _ n (State.settle _ _ (State.passed _ _ _ _)).scope
  rw [State.passed_append, lastKeyword_append]
  exact State.held_passed hcount (State.held_opener hopen _) (e :: rest) (some e.keyword)

/-- Every visit between a block and its end is in such a scope: what comes before it is a first part
of what lies between the two, and the rest closes the blocks that this part leaves open. -/
theorem exists_within_openAfter {before inner rest : List Entry} {opener closer : Entry} {t : Nat}
    {u : Visit}
    (hqueue : enqueue (subdivide pixels) = before ++ opener :: (inner ++ closer :: rest))
    (hopen : opener.keyword = .blockOpen)
    (hinner : openAfter 0 (inner.map Entry.keyword) = some 0)
    (hv : (l.visits pixels)[before.length]? = some v) (hend : t ≤ inner.length)
    (hu : (l.visits pixels)[before.length + t + 1]? = some u) :
    ∃ n, Within (v.state.bound v.context v.generated) n u.state.scope ∧
      openAfter n ((inner.drop t).map Entry.keyword) = some 0 := by
  have hsplit : inner.take t ++ inner.drop t = inner := List.take_append_drop t inner
  rw [← hsplit, List.map_append, openAfter_append] at hinner
  obtain ⟨n, hn, hdrop⟩ := Option.bind_eq_some_iff.1 hinner
  obtain ⟨e, rest', hrest⟩ : ∃ e rest', inner.drop t ++ closer :: rest = e :: rest' :=
    List.exists_cons_of_ne_nil (by simp)
  rw [← hsplit, List.append_assoc, hrest] at hqueue
  have hlength : (before ++ opener :: inner.take t).length = before.length + t + 1 := by
    rw [List.length_append, List.length_cons, List.length_take_of_le hend, Nat.add_assoc]
  exact ⟨n, within_visits hqueue hopen hn hv (hlength ▸ hu), hdrop⟩

theorem exists_within {before inner rest : List Entry} {opener closer : Entry} {m : Nat} {u : Visit}
    (hqueue : enqueue (subdivide pixels) = before ++ opener :: (inner ++ closer :: rest))
    (hopen : opener.keyword = .blockOpen)
    (hinner : openAfter 0 (inner.map Entry.keyword) = some 0)
    (hv : (l.visits pixels)[before.length]? = some v) (hm : before.length < m)
    (hend : m ≤ (before ++ opener :: inner).length) (hu : (l.visits pixels)[m]? = some u) :
    ∃ n, Within (v.state.bound v.context v.generated) n u.state.scope := by
  obtain ⟨t, rfl⟩ := Nat.exists_eq_add_of_lt hm
  rw [List.length_append, List.length_cons] at hend
  obtain ⟨n, hwithin, -⟩ := exists_within_openAfter hqueue hopen hinner hv (t := t) (by omega) hu
  exact ⟨n, hwithin⟩

theorem entry_of_visits (hv : (l.visits pixels)[i]? = some v) :
    (enqueue (subdivide pixels))[i]? = some v.entry := by
  rw [getElem?_enqueue l, hv]
  rfl

/-- The innermost block at a visit is the one of the visit with the number on top of the stack. -/
theorem head?_blockFrames (hv : (l.visits pixels)[i]? = some v)
    (hw : (l.visits pixels)[j]? = some w)
    (hmatch : (openNumbers (enqueue (subdivide pixels)) j).head? = some i) :
    (blockFrames w.state.scope.outlines).head? = some v.block := by
  have hopen := congrArg List.head? (map_some_openVisits l pixels j)
  rw [List.head?_map, List.head?_map, hmatch, Option.map_some, hv] at hopen
  obtain ⟨o, ho, heq⟩ := Option.map_eq_some_iff.1 hopen
  obtain rfl := Option.some.inj heq
  rw [blockFrames_visits hw, List.head?_map, ho]
  rfl

/-- The frame that is left when the end of a block is reached is the one that was opened. -/
theorem outline_block {base : Scope} {block : Frame} (hv : (l.visits pixels)[i]? = some v)
    (hw : (l.visits pixels)[j]? = some w) (hclose : w.entry.keyword = .blockClose)
    (hmatch : (openNumbers (enqueue (subdivide pixels)) j).head? = some i)
    (hblock : block.temporary = false)
    (h : w.after.popTemporaries.scope = { base with frames := block :: base.frames }) :
    block.outline = v.block := by
  have hblocks : blockFrames w.after.popTemporaries.scope.outlines =
      blockFrames w.state.scope.outlines := by
    rw [State.blockFrames_popTemporaries, Visit.blockFrames_after, hclose, if_neg nofun,
      List.nil_append]
  have hhead := head?_blockFrames hv hw hmatch
  rw [← hblocks, h] at hhead
  simpa [Scope.outlines, blockFrames, Frame.outline, hblock] using hhead

/-- **Blocks leak nothing.** Let the entry `w` end the block that the entry `v` opens, and let
`base` be the scope in which the block is opened, the name of its function included. Then every
entry in between, and the end itself, is generated in a scope over `base`, in which no frame of
`base` and no global binding has changed. When the block is left, after all temporary scopes in it,
its frame is the innermost, and what is left is `base`: the same frames with the same owners, sorts
and members, and no name of the block among them. -/
theorem block_restores (l : Language) (pixels : List Pixel) {i j : Nat} {v w : Visit}
    (hv : (l.visits pixels)[i]? = some v) (hw : (l.visits pixels)[j]? = some w)
    (hclose : w.entry.keyword = .blockClose)
    (hmatch : (openNumbers (enqueue (subdivide pixels)) j).head? = some i) :
    let base := v.state.bound v.context v.generated
    v.entry.keyword = .blockOpen ∧
    v.after.scope =
      (base.push (some (State.entryOwner v.context v.entry)) false).defineAll
        v.generated.parameters ∧
    (∀ m u, i < m → m ≤ j → (l.visits pixels)[m]? = some u →
      ∃ inner block, u.state.scope = { base with frames := inner ++ block :: base.frames }) ∧
    (∃ block : Frame, block.outline = v.block ∧
      w.after.popTemporaries.scope = { base with frames := block :: base.frames }) ∧
    w.after.popTemporaries.popBlock.scope = base ∧
    ∀ current, w.after.settle (some .blockClose) current =
      if current = some .orElse then w.after.popTemporaries.popBlock
      else w.after.popTemporaries.popBlock.popTemporaries := by
  intro base
  obtain ⟨before, opener, inner, rest, hqueue, rfl, rfl, hopen, hinner⟩ :=
    exists_of_openNumbers (entry_of_visits hw) hmatch
  have hentry : v.entry = opener := by
    have hv' := entry_of_visits hv
    rw [hqueue, List.getElem?_append_right (Nat.le_refl _), Nat.sub_self] at hv'
    exact (Option.some.inj hv').symm
  have hkeyword : v.entry.keyword = .blockOpen := hentry ▸ hopen
  have hwithin : Within base 0 w.state.scope := within_visits hqueue hopen hinner hv hw
  have hafter := Visit.within_after hwithin
  rw [hclose, if_neg nofun] at hafter
  obtain ⟨block, hblock, htemporaries, hpopped⟩ := State.popBlock_of_within hafter
  refine ⟨hkeyword, State.scope_after_blockOpen hkeyword, fun m u hm hmj hu => ?_,
    ⟨block, ?_, htemporaries⟩, hpopped, fun current => State.settle_blockClose current w.after⟩
  · obtain ⟨n, between, block, hscope, -⟩ := exists_within hqueue hopen hinner hv hm hmj hu
    exact ⟨between, block, hscope⟩
  · exact outline_block hv hw hclose hmatch hblock htemporaries

/-- A function with a parameter, the body of which is a loop with a block that declares a variable,
and a choice. -/
def functionOfBlocks : List Entry :=
  [rowEntry .declare 0 [rowPixel .symbol 1] 1,
    rowEntry .blockOpen 2 [{ rowPixel .symbol 3 with colour := .grey 7 }] 1,
    rowEntry .whileLoop 4 [] 1, rowEntry .blockOpen 5 [] 1,
    rowEntry .declare 6 [{ rowPixel .symbol 7 with colour := .grey 8 },
      rowPixel (.boolean true) 8] 1,
    rowEntry .blockClose 9 [] 1, rowEntry .ifThen 10 [rowPixel (.boolean true) 11] 1,
    rowEntry .print 12 [] 1, rowEntry .blockClose 13 [] 1]

theorem block_functionOfBlocks :
    let pixels := functionOfBlocks.flatMap (·.partition.pixels)
    ∃ v w, (standard.visits pixels)[1]? = some v ∧ (standard.visits pixels)[8]? = some w ∧
      w.entry.keyword = .blockClose ∧
      (openNumbers (enqueue (subdivide pixels)) 8).head? = some 1 ∧
      w.after.popTemporaries.popBlock.scope = v.state.bound v.context v.generated := by
  intro pixels
  have hqueue : enqueue (subdivide pixels) = functionOfBlocks := by decide
  obtain ⟨v, hv, -⟩ := exists_visit standard (i := 1) (by rw [hqueue]; rfl)
  obtain ⟨w, hw, hentry⟩ := exists_visit standard (i := 8) (by rw [hqueue]; rfl)
  have hclose : w.entry.keyword = .blockClose := by rw [hentry]; rfl
  have hmatch : (openNumbers (enqueue (subdivide pixels)) 8).head? = some 1 := by
    rw [hqueue]
    decide
  obtain ⟨-, -, -, -, hscope, -⟩ := block_restores standard pixels hv hw hclose hmatch
  exact ⟨v, w, hv, hw, hclose, hmatch, hscope⟩

end Language

end PixelLang
