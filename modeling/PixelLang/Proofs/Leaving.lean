import PixelLang.Proofs.Blocks
import PixelLang.Proofs.Nesting
import PixelLang.Proofs.Stretches

/-!
# Leaving functions and loops

A `return` asks for a scope that belongs to a declaration, a `break` for one that belongs to a loop,
anywhere in the chain of scopes. Which scopes these are is decided when a block is opened: by the
keyword before it, and by the function that waits for it. In terms of the queue:

* `Language.ownedBy_declare_iff`: the scopes of declarations are the open blocks directly after the
  declaration of a new function (`Visit.DeclaresFunction`).
* `Language.ownedBy_loop_iff`: the scopes of loops are the open blocks directly after a loop, and
  the temporary scopes of `while`.

So `return` is placed by the functions around it (`return_outside_iff`), and `break` by the loops
around it (`break_accepted_iff`), also by one outside of the function (`break_leaves_function`).
-/

set_option autoImplicit false

namespace PixelLang

/-! ## Frames by their owners -/

def Keyword.isLoop : Keyword → Bool
  | forEach | whileLoop => true
  | _ => false

/-- The frame belongs to a statement with such a keyword. -/
def Frame.ownedBy (p : Keyword → Bool) (f : Frame) : Bool := f.owner.any (p ·.keyword)

theorem Scope.isSome_enclosing? (s : Scope) (p : Keyword → Bool) :
    (s.enclosing? p).isSome = s.frames.any (·.ownedBy p) := by
  unfold enclosing?
  induction s.frames with
  | nil => rfl
  | cons frame outer ih =>
    rw [enclosingFrame?, List.any_cons, Frame.ownedBy, ← ih]
    cases frame.owner with
    | none => rfl
    | some owner => cases hp : p owner.keyword <;> simp [hp]

namespace Visit

def ownerKeyword (v : Visit) : Keyword :=
  State.ownerKeyword v.entry.keyword v.previous v.context.declaresFunction

theorem ownerKeyword_of_mem_opened {v : Visit} {f : Outline}
    (hf : f ∈ State.opened v.context v.entry) :
    (∃ owner, f.owner = some owner ∧ owner.keyword = v.ownerKeyword) ∧
      (f.temporary = true → v.ownerKeyword = v.entry.keyword ∧
        v.entry.keyword.traits.opensTemporary = true) := by
  obtain ⟨temporary, hopen, rfl⟩ := List.mem_map.1 hf
  refine ⟨⟨_, rfl, rfl⟩, ?_⟩
  rintro rfl
  rw [Option.mem_toList] at hopen
  unfold State.opening? at hopen
  unfold ownerKeyword State.ownerKeyword
  cases hk : v.entry.keyword <;> simp_all [Keyword.traits]

/-- The block after a declaration belongs to it if a function waits for the block. -/
theorem ownerKeyword_eq_declare {v : Visit} (hk : v.entry.keyword = .blockOpen) :
    v.ownerKeyword = .declare ↔ v.state.pending.isSome := by
  unfold ownerKeyword State.ownerKeyword context State.context
  rw [hk]
  cases hp : v.state.pending.isSome with
  | true => simp
  | false =>
    simp only [Bool.and_false, Bool.false_eq_true, ↓reduceIte, ne_eq, not_true_eq_false]
    split <;> simp

/-- The block after a loop belongs to the loop, since no function waits for it. -/
theorem isLoop_ownerKeyword {v : Visit} (hk : v.entry.keyword = .blockOpen)
    (hpending : v.state.pending.isSome → v.previous = some .declare) :
    v.ownerKeyword.isLoop = v.previous.any Keyword.isLoop := by
  unfold ownerKeyword context State.context
  rw [hk]
  cases hp : v.state.pending.isSome with
  | true =>
    rw [hpending hp]
    rfl
  | false =>
    rcases v.previous with _ | k
    · rfl
    · cases k <;> rfl

end Visit

/-! ## Functions that wait for their block -/

theorem Reader.fst_readName (k : Keyword) (token : Nat) (r : Reader) :
    (r.readName k token).1 = r.peek.filter (·.isSymbol) := by
  unfold readName next
  cases r.peek with
  | none => rfl
  | some p => cases hp : p.isSymbol <;> simp [Option.filter, hp]

theorem pending_declareVariable (scope : Scope) (existing : Option Member) (name : Pixel)
    (start : Nat) (r : Reader) :
    (declareVariable scope existing name start r).1.pending = none := by
  unfold declareVariable
  dsimp only
  split <;> rfl

/-- A declaration leaves a function that waits for the block after it if its name is new. -/
theorem pending_generateDeclare_eq_some (ctx : Context) (r : Reader) (p : Pending) :
    (generateDeclare ctx r).1.pending = some p ↔
      ctx.next = some .blockOpen ∧
        ∃ name, r.peek = some name ∧ name.isSymbol ∧ ctx.scope.get? name.hex = none ∧
          p = ⟨name.hex, name.identifier⟩ := by
  have hname := Reader.fst_readName .declare 1 r
  unfold generateDeclare
  rcases hread : r.readName .declare 1 with ⟨_ | name, r'⟩
  all_goals rw [hread] at hname
  · have hnone := Option.filter_eq_none_iff.1 hname.symm
    refine iff_of_false nofun ?_
    rintro ⟨-, name, hpeek, hsymbol, -⟩
    exact hnone name hpeek hsymbol
  · obtain ⟨hpeek, hsymbol⟩ := Option.filter_eq_some_iff.1 hname.symm
    by_cases hnext : ctx.next = some .blockOpen
    · cases hget : ctx.scope.get? name.hex with
      | none => simpa [hnext, declareFunction, hpeek, hsymbol, hget] using eq_comm
      | some m => simp [hnext, declareFunction, hpeek, hsymbol, hget]
    · simp [hnext, pending_declareVariable]

namespace Visit

/-- The entry declares `name`, which is a symbol that nothing in its scope has. -/
def Declares (v : Visit) (name : Pixel) : Prop :=
  v.entry.keyword = .declare ∧ v.entry.partition.tail.head? = some name ∧ name.isSymbol ∧
    v.state.scope.get? name.hex = none

/-- The entry declares a new name. -/
def DeclaresFunction (v : Visit) : Prop := ∃ name, v.Declares name

theorem pending_after_eq_some (v : Visit) (p : Pending) :
    v.after.pending = some p ↔
      v.next = some .blockOpen ∧ ∃ name, v.Declares name ∧ p = ⟨name.hex, name.identifier⟩ := by
  by_cases hk : v.entry.keyword = .declare
  · have hclose : v.entry.keyword ≠ .blockClose := by rw [hk]; nofun
    have hgenerated : v.after.pending =
        (generateDeclare v.context v.entry.reader.next.2).1.pending := by
      show (v.entry.keyword.generate v.context (v.state.entryReader v.entry)).1.pending = _
      rw [entryReader_eq hclose, hk]
      rfl
    rw [hgenerated, pending_generateDeclare_eq_some, peek_next_reader]
    simp only [Declares, hk, true_and, and_assoc]
    rfl
  · constructor
    · intro h
      exact absurd (Option.some.inj (v.pending_after (by rw [h]; rfl))) hk
    · rintro ⟨-, name, hdeclares, -⟩
      exact absurd hdeclares.1 hk

theorem Then.pending {v w : Visit} (h : v.Then w) : w.state.pending = v.after.pending := by
  rw [h.state, State.pending_settle]

end Visit

namespace Language

variable {l : Language} {pixels : List Pixel} {i : Nat} {v : Visit}

/-- A function waits at a visit exactly if the visit opens a block and the one before declares
it. -/
theorem pending_visits_eq_some (hv : (l.visits pixels)[i]? = some v) (p : Pending) :
    v.state.pending = some p ↔
      v.entry.keyword = .blockOpen ∧ ∃ k u name, k + 1 = i ∧ (l.visits pixels)[k]? = some u ∧
        u.Declares name ∧ p = ⟨name.hex, name.identifier⟩ := by
  cases i with
  | zero =>
    rw [(state_visits_zero hv).1, (startState_spec l _).2.2]
    simp
  | succ k =>
    obtain ⟨u, hu, hthen⟩ := exists_then hv
    rw [hthen.pending, Visit.pending_after_eq_some, hthen.next, Option.some.injEq]
    refine and_congr_right fun _ => ⟨?_, ?_⟩
    · rintro ⟨name, hdeclares, hp⟩
      exact ⟨k, u, name, rfl, hu, hdeclares, hp⟩
    · rintro ⟨k', u', name, hk', hu', hdeclares, hp⟩
      obtain rfl : k' = k := Nat.succ.inj hk'
      obtain rfl := Option.some.inj (hu.symm.trans hu')
      exact ⟨name, hdeclares, hp⟩

theorem isSome_pending_visits (hv : (l.visits pixels)[i]? = some v)
    (hk : v.entry.keyword = .blockOpen) :
    v.state.pending.isSome ↔
      ∃ k w, k + 1 = i ∧ (l.visits pixels)[k]? = some w ∧ w.DeclaresFunction := by
  rw [Option.isSome_iff_exists]
  simp only [pending_visits_eq_some hv, hk, true_and, Visit.DeclaresFunction]
  constructor
  · rintro ⟨p, k, u, name, hi, hu, hdeclares, -⟩
    exact ⟨k, u, hi, hu, name, hdeclares⟩
  · rintro ⟨k, u, hi, hu, name, hdeclares⟩
    exact ⟨_, k, u, name, hi, hu, hdeclares, rfl⟩

theorem previous_of_pending (hv : v ∈ l.visits pixels) (h : v.state.pending.isSome) :
    v.previous = some .declare := by
  obtain ⟨i, hv⟩ := List.mem_iff_getElem?.1 hv
  obtain ⟨p, hp⟩ := Option.isSome_iff_exists.1 h
  obtain ⟨-, k, u, name, rfl, hu, hdeclares, -⟩ := (pending_visits_eq_some hv p).1 hp
  rw [(State.then_visits hu hv).previous, hdeclares.1]

end Language

/-! ## Open blocks by number -/

/-- The numbers of the entries that open a block still open before entry `i`, the innermost
first. -/
def openNumbers (q : List Entry) (i : Nat) : List Nat :=
  (unmatched (·.1.keyword) (q.zipIdx.take i)).map (·.2)

theorem exists_of_mem_openNumbers {q : List Entry} {i k : Nat} (h : k ∈ openNumbers q i) :
    ∃ e, q[k]? = some e ∧ e.keyword = .blockOpen := by
  obtain ⟨o, ho, rfl⟩ := List.mem_map.1 h
  obtain ⟨hmem, hkeyword⟩ := mem_unmatched _ ho
  exact ⟨o.1, List.mem_zipIdx_iff_getElem?.1 (List.mem_of_mem_take hmem), hkeyword⟩

namespace Language

variable {l : Language} {pixels : List Pixel} {i : Nat} {v : Visit}

/-- The visits of open blocks are those with the numbers of open blocks. -/
theorem map_some_openVisits (l : Language) (pixels : List Pixel) (i : Nat) :
    (l.openVisits pixels i).map some =
      (openNumbers (enqueue (subdivide pixels)) i).map ((l.visits pixels)[·]?) := by
  let numbered := unmatched (fun o : Visit × Nat => o.1.entry.keyword)
    ((l.visits pixels).zipIdx.take i)
  have hvisits : l.openVisits pixels i = numbered.map (·.1) := by
    rw [openVisits, ← List.zipIdx_map_fst 0 (l.visits pixels), ← List.map_take, unmatched_map]
    rfl
  have hnumbers : openNumbers (enqueue (subdivide pixels)) i = numbered.map (·.2) := by
    rw [openNumbers, ← map_entry_visits l pixels, List.zipIdx_map, ← List.map_take, unmatched_map,
      List.map_map]
    rfl
  rw [hvisits, hnumbers, List.map_map, List.map_map]
  refine List.map_congr_left fun o ho => ?_
  have htake := (mem_unmatched _ ho).1
  exact (List.mem_zipIdx_iff_getElem?.1 (List.mem_of_mem_take htake)).symm

theorem exists_openVisits_iff (P : Visit → Prop) :
    (∃ o ∈ l.openVisits pixels i, P o) ↔
      ∃ k o, k ∈ openNumbers (enqueue (subdivide pixels)) i ∧
        (l.visits pixels)[k]? = some o ∧ P o := by
  have hmem (o : Visit) : o ∈ l.openVisits pixels i ↔
      ∃ k ∈ openNumbers (enqueue (subdivide pixels)) i, (l.visits pixels)[k]? = some o := by
    rw [← List.mem_map, ← map_some_openVisits]
    simp
  constructor
  · rintro ⟨o, ho, hP⟩
    obtain ⟨k, hk, hget⟩ := (hmem o).1 ho
    exact ⟨k, o, hk, hget, hP⟩
  · rintro ⟨k, o, hk, hget, hP⟩
    exact ⟨o, (hmem o).2 ⟨k, hk, hget⟩, hP⟩

theorem visit_of_mem_openNumbers {k : Nat}
    (h : k ∈ openNumbers (enqueue (subdivide pixels)) i) :
    ∃ o, (l.visits pixels)[k]? = some o ∧ o.entry.keyword = .blockOpen := by
  obtain ⟨e, he, hkeyword⟩ := exists_of_mem_openNumbers h
  obtain ⟨o, ho, rfl⟩ := exists_visit l he
  exact ⟨o, ho, hkeyword⟩

theorem mem_visits_of_mem_openVisits {o : Visit} (h : o ∈ l.openVisits pixels i) :
    o ∈ l.visits pixels ∧ o.entry.keyword = .blockOpen := by
  obtain ⟨hmem, hk⟩ := mem_unmatched _ h
  exact ⟨List.mem_of_mem_take hmem, hk⟩

/-- **The scopes that belong to some keyword**: open blocks that do, and temporary scopes opened by
such a keyword itself. -/
theorem ownedBy_iff (hv : (l.visits pixels)[i]? = some v) (p : Keyword → Bool) :
    (∃ f ∈ v.state.scope.frames, f.ownedBy p) ↔
      (∃ o ∈ l.openVisits pixels i, p o.ownerKeyword) ∨
        ∃ f ∈ v.state.scope.frames, f.temporary ∧
          f.ownedBy (fun k => p k && k.traits.opensTemporary) := by
  have hblocks := blockFrames_visits hv
  constructor
  · rintro ⟨f, hf, hp⟩
    have houtline : f.outline ∈ v.state.scope.outlines := List.mem_map_of_mem hf
    cases ht : f.temporary with
    | false =>
      -- a block: one of those that are open, with the owner it was opened with
      have hblock : f.outline ∈ blockFrames v.state.scope.outlines :=
        List.mem_filter.2 ⟨houtline, by simp [Frame.outline, ht]⟩
      rw [hblocks] at hblock
      obtain ⟨o, ho, heq⟩ := List.mem_map.1 hblock
      have howner : f.owner = some (State.entryOwner o.context o.entry) :=
        (congrArg Outline.owner heq).symm
      rw [Frame.ownedBy, howner] at hp
      exact .inl ⟨o, ho, hp⟩
    | true =>
      -- no count tells which temporary scopes are left, but each was opened by its owner
      obtain ⟨u, -, hu⟩ := exists_opener hv houtline
      obtain ⟨⟨owner, howner, hkeyword⟩, htemporary⟩ := Visit.ownerKeyword_of_mem_opened hu
      obtain ⟨hown, htraits⟩ := htemporary ht
      have howner' : f.owner = some owner := howner
      refine .inr ⟨f, hf, ht, ?_⟩
      rw [Frame.ownedBy, howner'] at hp ⊢
      simpa [hkeyword, hown, htraits] using hp
  · rintro (⟨o, ho, hp⟩ | ⟨f, hf, -, hp⟩)
    · have hblock : o.block ∈ blockFrames v.state.scope.outlines :=
        hblocks ▸ List.mem_map_of_mem ho
      obtain ⟨f, hf, heq⟩ := List.mem_map.1 (List.mem_filter.1 hblock).1
      have howner : f.owner = some (State.entryOwner o.context o.entry) :=
        congrArg Outline.owner heq
      refine ⟨f, hf, ?_⟩
      rw [Frame.ownedBy, howner]
      exact hp
    · refine ⟨f, hf, ?_⟩
      unfold Frame.ownedBy at hp ⊢
      cases ho : f.owner with
      | none => simp [ho] at hp
      | some owner =>
        rw [ho] at hp
        exact (Bool.and_eq_true_iff.1 hp).1

/-- A scope belongs to a declaration exactly if an open block comes directly after the declaration
of a new function. -/
theorem ownedBy_declare_iff (hv : (l.visits pixels)[i]? = some v) :
    (∃ f ∈ v.state.scope.frames, f.ownedBy (· == .declare)) ↔
      ∃ k w, k + 1 ∈ openNumbers (enqueue (subdivide pixels)) i ∧
        (l.visits pixels)[k]? = some w ∧ w.DeclaresFunction := by
  have htemporary : ¬∃ f ∈ v.state.scope.frames, f.temporary ∧
      f.ownedBy (fun k => k == .declare && k.traits.opensTemporary) := by
    rintro ⟨f, -, -, hp⟩
    unfold Frame.ownedBy at hp
    cases ho : f.owner with
    | none => simp [ho] at hp
    | some owner => cases hk : owner.keyword <;> simp [ho, hk, Keyword.traits] at hp
  have hpending : (∃ o ∈ l.openVisits pixels i, (o.ownerKeyword == .declare) = true) ↔
      ∃ o ∈ l.openVisits pixels i, o.state.pending.isSome := by
    refine exists_congr fun o => and_congr_right fun ho => ?_
    rw [beq_iff_eq, Visit.ownerKeyword_eq_declare (mem_visits_of_mem_openVisits ho).2]
  rw [ownedBy_iff hv, or_iff_left htemporary, hpending, exists_openVisits_iff]
  constructor
  · rintro ⟨n, o, hn, ho, hwaits⟩
    obtain ⟨o', ho', hopen⟩ := visit_of_mem_openNumbers (l := l) hn
    obtain rfl : o' = o := Option.some.inj (ho'.symm.trans ho)
    obtain ⟨k, w, rfl, hw, hdeclares⟩ := (isSome_pending_visits ho hopen).1 hwaits
    exact ⟨k, w, hn, hw, hdeclares⟩
  · rintro ⟨k, w, hn, hw, hdeclares⟩
    obtain ⟨o, ho, hopen⟩ := visit_of_mem_openNumbers (l := l) hn
    exact ⟨k + 1, o, hn, ho, (isSome_pending_visits ho hopen).2 ⟨k, w, rfl, hw, hdeclares⟩⟩

theorem previous_visits {k : Nat} (hv : (l.visits pixels)[k]? = some v) (p : Keyword → Bool) :
    v.previous.any p ↔
      ∃ n e, n + 1 = k ∧ (enqueue (subdivide pixels))[n]? = some e ∧ p e.keyword := by
  cases k with
  | zero => simp [(state_visits_zero hv).2]
  | succ n =>
    obtain ⟨u, hu, hthen⟩ := exists_then hv
    rw [hthen.previous]
    constructor
    · intro hp
      exact ⟨n, u.entry, rfl, by rw [getElem?_enqueue l, hu]; rfl, hp⟩
    · rintro ⟨n', e, hn, he, hp⟩
      obtain rfl : n' = n := Nat.succ.inj hn
      rw [getElem?_enqueue l, hu] at he
      obtain rfl := Option.some.inj he
      exact hp

/-- A scope belongs to a loop exactly if an open block comes directly after a loop, or the body of a
`while` is a single statement that has not ended. -/
theorem ownedBy_loop_iff (hv : (l.visits pixels)[i]? = some v) :
    (∃ f ∈ v.state.scope.frames, f.ownedBy Keyword.isLoop) ↔
      (∃ k e, k + 1 ∈ openNumbers (enqueue (subdivide pixels)) i ∧
        (enqueue (subdivide pixels))[k]? = some e ∧ e.keyword.isLoop) ∨
        ∃ f ∈ v.state.scope.frames, f.temporary ∧ f.ownedBy (· == .whileLoop) := by
  have hblocks : (∃ o ∈ l.openVisits pixels i, o.ownerKeyword.isLoop) ↔
      ∃ o ∈ l.openVisits pixels i, o.previous.any Keyword.isLoop := by
    refine exists_congr fun o => and_congr_right fun ho => ?_
    obtain ⟨hmem, hopen⟩ := mem_visits_of_mem_openVisits ho
    rw [Visit.isLoop_ownerKeyword hopen (previous_of_pending hmem)]
  have htemporary (f : Frame) :
      f.ownedBy (fun k => k.isLoop && k.traits.opensTemporary) = f.ownedBy (· == .whileLoop) := by
    unfold Frame.ownedBy
    congr 1
    funext owner
    cases owner.keyword <;> rfl
  rw [ownedBy_iff hv, hblocks, exists_openVisits_iff]
  simp only [htemporary]
  refine or_congr_left ⟨?_, ?_⟩
  · rintro ⟨n, o, hn, ho, hloop⟩
    obtain ⟨k, e, rfl, he, hp⟩ := (previous_visits ho _).1 hloop
    exact ⟨k, e, hn, he, hp⟩
  · rintro ⟨k, e, hn, he, hp⟩
    obtain ⟨o, ho, -⟩ := visit_of_mem_openNumbers (l := l) hn
    exact ⟨k + 1, o, hn, ho, (previous_visits ho _).2 ⟨k, e, rfl, he, hp⟩⟩

end Language

/-! ## Where `return` and `break` may stand -/

theorem Problem.OfTokens.kind_ne {p : Problem} (h : p.OfTokens) : p.kind ≠ .structural := by
  cases p <;> first | exact h.elim | simp [kind]

/-- A problem of structure that a statement reports is one of its place, unless it is the end of a
block. -/
theorem Visit.misplaced?_of_structural {v : Visit}
    (h : v.entry.partition.keyword? = some v.entry.keyword)
    (hclose : v.entry.keyword ≠ .blockClose) {d : Diagnostic} (hd : d ∈ v.reader.diagnostics)
    (hkind : d.kind = .structural) :
    v.entry.keyword.misplaced? v.context = some d.problem := by
  obtain ⟨ds, htokens, hds⟩ := v.diagnostics_reader h
  have hstray : ¬v.isStray = true := fun hs => hclose (keyword_of_isStray hs)
  rw [hds, if_neg hstray, List.nil_append] at hd
  rcases List.mem_append.1 hd with hd | hd
  · exact absurd hkind (htokens d hd).kind_ne
  · obtain ⟨problem, hproblem, rfl⟩ := List.mem_map.1 hd
    exact Option.mem_toList.1 hproblem

theorem Visit.atKeyword_mem_reader {v : Visit}
    (h : v.entry.partition.keyword? = some v.entry.keyword) {problem : Problem}
    (hproblem : v.entry.keyword.misplaced? v.context = some problem) :
    v.entry.atKeyword problem ∈ v.reader.diagnostics := by
  obtain ⟨ds, -, hds⟩ := v.diagnostics_reader h
  rw [hds, hproblem]
  simp

/-- A single `return` asks for the scope of a function, a repeated one for that of a loop. -/
theorem Visit.misplaced?_ret {v : Visit} (hk : v.entry.keyword = .ret) :
    v.entry.keyword.misplaced? v.context =
      if v.entry.chain = 1 ∧ v.state.scope.frames.any (·.ownedBy (· == .declare)) = false then
        some .returnOutsideFunction
      else if v.entry.chain = 2 ∧ v.state.scope.frames.any (·.ownedBy Keyword.isLoop) = false then
        some .breakOutsideLoop
      else none := by
  have hnone (p : Keyword → Bool) : (v.context.scope.enclosing? p).isNone = true ↔
      v.state.scope.frames.any (·.ownedBy p) = false := by
    rw [← Option.not_isSome, Scope.isSome_enclosing?, Bool.not_eq_true']
    rfl
  have hloop : (fun k => k == Keyword.forEach || k == .whileLoop) = Keyword.isLoop := by
    funext k
    cases k <;> rfl
  rw [hk, Keyword.misplaced?, hloop]
  simp only [hnone]
  rfl

namespace Language

/-- **A `return` is placed by the functions around it.** It is reported to be outside of a function
exactly if none of the blocks that are open at it comes directly after the declaration of a name
that did not resolve there. -/
theorem return_outside_iff (l : Language) (pixels : List Pixel) {i : Nat} {v : Visit}
    (hv : (l.visits pixels)[i]? = some v) (hk : v.entry.keyword = .ret)
    (hchain : v.entry.chain = 1) :
    (∃ d ∈ v.reader.diagnostics,
      d.kind = .structural ∧ d.message = "return outside of a function") ↔
      ¬∃ k w, k + 1 ∈ openNumbers (enqueue (subdivide pixels)) i ∧
        (l.visits pixels)[k]? = some w ∧ w.DeclaresFunction := by
  have hkeyword := keyword_of_mem_visits (List.mem_of_getElem? hv)
  have hplace := Visit.misplaced?_ret hk
  rw [← ownedBy_declare_iff hv, ← List.any_eq_true, Bool.not_eq_true]
  constructor
  · rintro ⟨d, hd, hkind, -⟩
    have hproblem := Visit.misplaced?_of_structural hkeyword (by rw [hk]; nofun) hd hkind
    by_contra hfunction
    rw [hplace, if_neg fun h => hfunction h.2, hchain] at hproblem
    cases hproblem
  · intro hnone
    rw [if_pos ⟨hchain, hnone⟩] at hplace
    exact ⟨_, Visit.atKeyword_mem_reader hkeyword hplace, rfl, rfl⟩

/-- **A `break` is placed by the loops around it.** It reports nothing exactly if it is the keyword
alone and some scope around it belongs to a loop, wherever in the chain: the block of a loop that is
still open, or the body of a `while` that is a single statement. -/
theorem break_accepted_iff (l : Language) (pixels : List Pixel) {i : Nat} {v : Visit}
    (hv : (l.visits pixels)[i]? = some v) (hk : v.entry.keyword = .ret)
    (hchain : v.entry.chain = 2) :
    (v.reader.diagnostics = [] ↔
      v.entry.partition.isBare ∧ ∃ f ∈ v.state.scope.frames, f.ownedBy Keyword.isLoop) ∧
    ((∃ f ∈ v.state.scope.frames, f.ownedBy Keyword.isLoop) ↔
      (∃ k e, k + 1 ∈ openNumbers (enqueue (subdivide pixels)) i ∧
        (enqueue (subdivide pixels))[k]? = some e ∧ e.keyword.isLoop) ∨
      ∃ f ∈ v.state.scope.frames, f.temporary ∧ f.ownedBy (· == .whileLoop)) := by
  refine ⟨?_, ownedBy_loop_iff hv⟩
  rw [Visit.diagnostics_eq_nil_iff (.inr ⟨hk, hchain⟩), Visit.misplaced?_ret hk, hchain,
    ← List.any_eq_true]
  refine and_congr_right fun _ => ?_
  cases v.state.scope.frames.any (·.ownedBy Keyword.isLoop) <;> simp

end Language

/-! ## A program that breaks out of a function -/

/-- In a loop without a condition, a function whose body is `break`, an empty `print` and
`return`. -/
def loopedFunction : List Pixel :=
  [rowPixel (.keyword .whileLoop) 0, rowPixel (.keyword .declare) 1, rowPixel .symbol 2,
    rowPixel (.keyword .blockOpen) 3, rowPixel (.keyword .ret) 4, rowPixel (.keyword .ret) 5,
    rowPixel (.keyword .print) 6, rowPixel (.keyword .ret) 7, rowPixel (.keyword .blockClose) 8]

/-- A scope of a loop lies inside the innermost scope of a function; where there is none, anywhere
around. -/
def Scope.loopInFunction (s : Scope) : Bool :=
  (s.frames.takeWhile (!·.ownedBy (· == .declare))).any (·.ownedBy Keyword.isLoop)

theorem Language.break_leaves_function :
    ¬∀ (l : Language) (pixels : List Pixel), ∀ v ∈ l.visits pixels,
      v.entry.keyword = .ret → v.entry.chain = 2 → v.reader.diagnostics = [] →
        v.state.scope.loopInFunction = true := by
  intro h
  have hbreak : ∃ v ∈ Language.plain.visits loopedFunction, v.entry.keyword = .ret ∧
      v.entry.chain = 2 ∧ v.reader.diagnostics = [] ∧ v.state.scope.loopInFunction = false := by
    decide +kernel
  obtain ⟨v, hv, hk, hchain, hnone, houtside⟩ := hbreak
  have hinside := h .plain loopedFunction v hv hk hchain hnone
  rw [houtside] at hinside
  cases hinside

def loopedFunctionBreak : Entry := rowEntry .ret 5 [] 2

theorem Language.break_loopedFunction :
    ∃ v, (Language.plain.visits loopedFunction)[3]? = some v ∧ v.entry.keyword = .ret ∧
      v.entry.chain = 2 ∧ v.entry.partition.isBare ∧
      (∃ f ∈ v.state.scope.frames, f.temporary ∧ f.ownedBy (· == .whileLoop)) ∧
      v.reader.diagnostics = [] := by
  obtain ⟨v, hv, heq⟩ := exists_visit .plain
    (show (enqueue (subdivide loopedFunction))[3]? = some loopedFunctionBreak by decide)
  have hk : v.entry.keyword = .ret := by rw [heq]; rfl
  have hchain : v.entry.chain = 2 := by rw [heq]; rfl
  have hbare : v.entry.partition.isBare := by rw [heq]; rfl
  have hloop : ∃ f ∈ v.state.scope.frames, f.temporary ∧ f.ownedBy (· == .whileLoop) := by
    have hframes : (Language.plain.visits loopedFunction)[3]?.map (fun v =>
        decide (∃ f ∈ v.state.scope.frames, f.temporary ∧ f.ownedBy (· == .whileLoop))) =
          some true := by decide +kernel
    rw [hv] at hframes
    exact of_decide_eq_true (Option.some.inj hframes)
  obtain ⟨haccepted, haround⟩ := break_accepted_iff _ _ hv hk hchain
  exact ⟨v, hv, hk, hchain, hbare, hloop, haccepted.2 ⟨hbare, haround.2 (.inr hloop)⟩⟩

def loopedFunctionReturn : Entry := rowEntry .ret 7 [] 1

def loopedFunctionHead : Entry := rowEntry .declare 1 [rowPixel .symbol 2] 1

/-- The `return` in the function is not outside of it, and one in front of it is. -/
theorem Language.return_loopedFunction :
    (∃ v, (Language.plain.visits loopedFunction)[5]? = some v ∧ v.entry.keyword = .ret ∧
      v.entry.chain = 1 ∧
      (∃ k w, k + 1 ∈ openNumbers (enqueue (subdivide loopedFunction)) 5 ∧
        (Language.plain.visits loopedFunction)[k]? = some w ∧ w.DeclaresFunction) ∧
      ¬∃ d ∈ v.reader.diagnostics,
        d.kind = .structural ∧ d.message = "return outside of a function") ∧
    ∃ v, (Language.plain.visits [rowPixel (.keyword .ret) 0])[0]? = some v ∧
      openNumbers (enqueue (subdivide [rowPixel (.keyword .ret) 0])) 0 = [] ∧
      ∃ d ∈ v.reader.diagnostics,
        d.kind = .structural ∧ d.message = "return outside of a function" := by
  constructor
  · obtain ⟨v, hv, heq⟩ := exists_visit .plain
      (show (enqueue (subdivide loopedFunction))[5]? = some loopedFunctionReturn by decide)
    obtain ⟨w, hw, hhead⟩ := exists_visit .plain
      (show (enqueue (subdivide loopedFunction))[1]? = some loopedFunctionHead by decide)
    have hk : v.entry.keyword = .ret := by rw [heq]; rfl
    have hchain : v.entry.chain = 1 := by rw [heq]; rfl
    have hopen : 1 + 1 ∈ openNumbers (enqueue (subdivide loopedFunction)) 5 := by decide
    have hnew : (Language.plain.visits loopedFunction)[1]?.map
        (·.state.scope.get? (rowPixel .symbol 2).hex) = some none := by decide +kernel
    rw [hw] at hnew
    have hdeclares : w.Declares (rowPixel .symbol 2) :=
      ⟨by rw [hhead]; rfl, by rw [hhead]; rfl, rfl, Option.some.inj hnew⟩
    refine ⟨v, hv, hk, hchain, ⟨1, w, hopen, hw, _, hdeclares⟩, fun h => ?_⟩
    exact (return_outside_iff _ _ hv hk hchain).1 h ⟨1, w, hopen, hw, _, hdeclares⟩
  · obtain ⟨v, hv, heq⟩ := exists_visit .plain
      (show (enqueue (subdivide [rowPixel (.keyword .ret) 0]))[0]? =
        some (rowEntry .ret 0 [] 1) by decide)
    have hnone : openNumbers (enqueue (subdivide [rowPixel (.keyword .ret) 0])) 0 = [] := by decide
    refine ⟨v, hv, hnone, (return_outside_iff _ _ hv (by rw [heq]; rfl) (by rw [heq]; rfl)).2 ?_⟩
    rintro ⟨k, w, hk, -⟩
    rw [hnone] at hk
    exact List.not_mem_nil hk

end PixelLang
