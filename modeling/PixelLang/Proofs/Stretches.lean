import PixelLang.Proofs.Visits

/-!
# Stretches of a run

A run can be cut at any place of its queue. `State.passed` is the state after a stretch of entries,
before what follows them is settled, and `State.getElem?_visits` says that the visit of the next
entry starts from there. From visit to visit:

* `Visit.Then`: a visit starts with what the one before it left, settled.
* `Language.exists_opener`: every frame at a visit was opened by an earlier visit.
* `Language.resolves_since`: a name that resolves at a visit did so at any earlier visit, or was
  bound since.
-/

set_option autoImplicit false

namespace PixelLang

/-! ## Cutting a run -/

/-- The keyword of the last of some entries, or `previous` if there are none. -/
def lastKeyword : (previous : Option Keyword) → List Entry → Option Keyword
  | previous, [] => previous
  | _, e :: q => lastKeyword (some e.keyword) q

theorem lastKeyword_append (previous : Option Keyword) (q q' : List Entry) :
    lastKeyword previous (q ++ q') = lastKeyword (lastKeyword previous q) q' := by
  induction q generalizing previous with
  | nil => rfl
  | cons e q ih => exact ih (some e.keyword)

namespace State

/-- The state after the entries of a stretch, in front of `rest`. -/
def passed (rest : List Entry) : (previous : Option Keyword) → List Entry → State → State
  | _, [], s => s
  | previous, e :: q, s => passed rest (some e.keyword) q (s.visit previous e (q ++ rest)).after

theorem passed_append (rest : List Entry) (previous : Option Keyword) (q q' : List Entry)
    (s : State) :
    passed rest previous (q ++ q') s =
      passed rest (lastKeyword previous q) q' (passed (q' ++ rest) previous q s) := by
  induction q generalizing previous s with
  | nil => rfl
  | cons e q ih =>
    rw [List.cons_append, passed, List.append_assoc, ih]
    rfl

theorem drop_visits (previous : Option Keyword) (q rest : List Entry) (s : State) :
    (visits previous (q ++ rest) s).drop q.length =
      visits (lastKeyword previous q) rest (passed rest previous q s) := by
  induction q generalizing previous s with
  | nil => rfl
  | cons e q ih => exact ih _ _

/-- The visit of an entry starts from the state after the entries before it. -/
theorem getElem?_visits (previous : Option Keyword) (q : List Entry) (e : Entry)
    (rest : List Entry) (s : State) :
    (visits previous (q ++ e :: rest) s)[q.length]? =
      some ((passed (e :: rest) previous q s).visit (lastKeyword previous q) e rest) := by
  have hdrop := congrArg (·[0]?) (drop_visits previous q (e :: rest) s)
  rwa [List.getElem?_drop] at hdrop

end State

/-! ## One visit after the other -/

/-- The visit `w` comes directly after `v`. -/
structure Visit.Then (v w : Visit) : Prop where
  state : w.state = v.after.settle (some v.entry.keyword) (some w.entry.keyword)
  previous : w.previous = some v.entry.keyword
  next : v.next = some w.entry.keyword

theorem State.then_visits {q : List Entry} {previous : Option Keyword} {s : State} {i : Nat}
    {v w : Visit} (hv : (visits previous q s)[i]? = some v)
    (hw : (visits previous q s)[i + 1]? = some w) : v.Then w := by
  induction q generalizing previous s i with
  | nil => simp [visits] at hv
  | cons e rest ih =>
    cases i with
    | succ i => exact ih hv hw
    | zero =>
      obtain rfl : s.visit previous e rest = v := Option.some.inj hv
      cases rest with
      | nil => simp [visits] at hw
      | cons e' rest =>
        obtain rfl := Option.some.inj hw
        exact ⟨rfl, rfl, rfl⟩

namespace Language

variable {l : Language} {pixels : List Pixel} {i : Nat} {v w : Visit}

theorem exists_then (hw : (l.visits pixels)[i + 1]? = some w) :
    ∃ v, (l.visits pixels)[i]? = some v ∧ v.Then w := by
  have hv := List.getElem?_eq_getElem (Nat.lt_of_succ_lt (List.getElem?_eq_some_iff.1 hw).1)
  exact ⟨_, hv, State.then_visits hv hw⟩

theorem state_visits_zero (hv : (l.visits pixels)[0]? = some v) :
    v.state = l.startState (subdivide pixels) ∧ v.previous = none := by
  rw [visits] at hv
  cases hq : enqueue (subdivide pixels) with
  | nil => simp [hq, State.visits] at hv
  | cons e rest =>
    rw [hq] at hv
    obtain rfl := Option.some.inj hv
    exact ⟨rfl, rfl⟩

theorem getElem?_enqueue (l : Language) (pixels : List Pixel) (i : Nat) :
    (enqueue (subdivide pixels))[i]? = (l.visits pixels)[i]?.map (·.entry) := by
  rw [← map_entry_visits l pixels, List.getElem?_map]

theorem exists_visit (l : Language) {e : Entry} (h : (enqueue (subdivide pixels))[i]? = some e) :
    ∃ v, (l.visits pixels)[i]? = some v ∧ v.entry = e := by
  rw [getElem?_enqueue l] at h
  exact Option.map_eq_some_iff.1 h

end Language

/-! ## Programs of one row -/

/-- The language without colours and libraries. -/
def Language.plain : Language := ⟨.empty, .standard, []⟩

def rowPixel (kind : PixelKind) (x : Nat) : Pixel := ⟨⟨0, 0, 0, 255⟩, x, 0, kind⟩

/-- The entry of a keyword at `x` that is followed by `tail`. -/
def rowEntry (k : Keyword) (x : Nat) (tail : List Pixel) (chain : Nat) : Entry :=
  ⟨k, ⟨rowPixel (.keyword k) x, tail⟩, chain⟩

/-! ## Who opened a frame -/

section
variable {α : Type} (temporary : α → Bool)

theorem settledStack_suffix (previous current : Option Keyword) (stack : List α) :
    settledStack temporary previous current stack <:+ stack := by
  have hblock : (stack.dropWhile temporary).tail <:+ stack :=
    (List.tail_suffix _).trans (List.dropWhile_suffix temporary)
  have hone : dropTemporary temporary stack <:+ stack := by
    rw [← dropTemporary_eq_drop]
    exact List.drop_suffix _ _
  cases previous with
  | none => exact List.suffix_rfl
  | some k =>
    simp only [settledStack]
    repeat' split
    · exact List.suffix_rfl
    · exact hblock
    · exact (List.dropWhile_suffix temporary).trans hblock
    · exact hone
    · exact List.suffix_rfl
    · exact List.dropWhile_suffix temporary

end

namespace State

/-- Settling changes the frames of the scope and nothing else of it. -/
theorem scope_settle (previous current : Option Keyword) (s : State) :
    (s.settle previous current).scope =
      { s.scope with frames := settledStack (·.temporary) previous current s.scope.frames } := by
  obtain ⟨log, heq, -⟩ := leaves_settle previous current s
  rw [heq]

theorem pending_settle (previous current : Option Keyword) (s : State) :
    (s.settle previous current).pending = s.pending := by
  obtain ⟨log, heq, -⟩ := leaves_settle previous current s
  rw [heq]

theorem mem_outlines_visits {q : List Entry} {previous : Option Keyword} {s : State} {i : Nat}
    {v : Visit} {f : Outline} (hv : (visits previous q s)[i]? = some v)
    (hf : f ∈ v.state.scope.outlines) :
    f ∈ s.scope.outlines ∨
      ∃ u ∈ (visits previous q s).take i, f ∈ opened u.context u.entry := by
  induction q generalizing previous s i with
  | nil => simp [visits] at hv
  | cons e rest ih =>
    have hsettled : ∀ g ∈ (s.visit previous e rest).state.scope.outlines,
        g ∈ s.scope.outlines := by
      intro g hg
      rw [show (s.visit previous e rest).state = s.settle previous (some e.keyword) from rfl,
        outlines_settle] at hg
      exact (settledStack_suffix _ _ _ _).subset hg
    cases i with
    | zero =>
      obtain rfl : s.visit previous e rest = v := Option.some.inj hv
      exact .inl (hsettled f hf)
    | succ i =>
      rw [visits, List.take_succ_cons]
      rcases ih (i := i) hv with h | ⟨u, hu, hfu⟩
      · rw [Visit.outlines_after] at h
        rcases List.mem_append.1 h with h | h
        · exact .inr ⟨_, .head _, h⟩
        · exact .inl (hsettled f h)
      · exact .inr ⟨u, .tail _ hu, hfu⟩

end State

theorem Language.exists_opener {l : Language} {pixels : List Pixel} {i : Nat} {v : Visit}
    {f : Outline} (hv : (l.visits pixels)[i]? = some v) (hf : f ∈ v.state.scope.outlines) :
    ∃ u ∈ (l.visits pixels).take i, f ∈ State.opened u.context u.entry := by
  rcases State.mem_outlines_visits hv hf with h | h
  · rw [(startState_spec l (subdivide pixels)).2.1] at h
    simp [globalScope, Scope.ofGlobals, Scope.outlines] at h
  · exact h

/-! ## Where a name comes from -/

namespace Scope

theorem isSome_get?_define {s : Scope} {key k : String} {m : Member} :
    ((s.define key m).get? k).isSome ↔ (s.get? k).isSome ∨ k = key := by
  rw [get?_define]
  by_cases h : k = key <;> simp [h]

theorem isSome_get?_defineAll {s : Scope} {entries : List (String × Member)} {k : String} :
    ((s.defineAll entries).get? k).isSome ↔ (s.get? k).isSome ∨ k ∈ entries.map (·.1) := by
  induction entries generalizing s with
  | nil => simp [defineAll]
  | cons entry entries ih =>
    rw [show s.defineAll (entry :: entries) = (s.define entry.1 entry.2).defineAll entries from rfl,
      ih, isSome_get?_define, List.map_cons, List.mem_cons, or_assoc]

/-- What resolves with fewer frames resolves with all of them. -/
theorem isSome_get?_of_suffix {s : Scope} {frames : List Frame} {key : String}
    (hframes : frames <:+ s.frames)
    (h : (({ s with frames := frames } : Scope).get? key).isSome) : (s.get? key).isSome := by
  obtain ⟨inner, hinner⟩ := hframes
  unfold get? at h ⊢
  rw [← hinner, List.findSome?_append]
  cases inner.findSome? (·.members.get? key) with
  | some m => rfl
  | none => exact h

end Scope

namespace Visit

/-- What comes of generating the entry. -/
def generated (v : Visit) : Generated :=
  (v.entry.keyword.generate v.context (v.state.entryReader v.entry)).1

/-- The keys that the visit binds: names of its own, parameters of its block and the function that
waits for the block. -/
def boundKeys (v : Visit) : List String :=
  v.generated.definitions.map (·.1) ++ v.generated.parameters.map (·.1) ++
    if v.context.declaresFunction then v.state.pending.toList.map (·.key) else []

theorem scope_after (v : Visit) :
    v.after.scope = v.state.scopeAfter v.context v.entry v.generated := rfl

/-- After a visit only what resolved before it and what it binds resolves. -/
theorem resolves_after {v : Visit} {key : String} (h : (v.after.scope.get? key).isSome) :
    (v.state.scope.get? key).isSome ∨ key ∈ v.boundKeys := by
  have hbound : ((v.state.bound v.context v.generated).get? key).isSome →
      (v.state.scope.get? key).isSome ∨ key ∈ v.boundKeys := by
    intro h
    unfold State.bound at h
    unfold boundKeys
    cases hp : v.state.pending with
    | none =>
      simp only [hp, Scope.isSome_get?_defineAll] at h
      grind
    | some p =>
      cases hd : v.context.declaresFunction with
      | false =>
        simp only [hp, hd, Bool.false_eq_true, ↓reduceIte, Scope.isSome_get?_defineAll] at h
        grind
      | true =>
        simp only [hp, hd, ↓reduceIte, Scope.isSome_get?_define, Scope.isSome_get?_defineAll] at h
        grind [Pending.resolve]
  rw [scope_after] at h
  unfold State.scopeAfter at h
  cases hopen : State.opening? v.context v.entry.keyword with
  | none => exact hbound (by simpa [hopen] using h)
  | some temporary =>
    cases temporary with
    | true => exact hbound (by simpa [hopen] using h)
    | false =>
      simp only [hopen, Bool.false_eq_true, ↓reduceIte, Scope.isSome_get?_defineAll,
        Scope.get?_push] at h
      rcases h with h | h
      · exact hbound h
      · exact .inr (List.mem_append_left _ (List.mem_append_right _ h))

theorem Then.resolves {v w : Visit} (hthen : v.Then w) {key : String}
    (h : (w.state.scope.get? key).isSome) :
    (v.state.scope.get? key).isSome ∨ key ∈ v.boundKeys := by
  rw [hthen.state, State.scope_settle] at h
  exact resolves_after (Scope.isSome_get?_of_suffix (settledStack_suffix _ _ _ _) h)

end Visit

namespace Language

variable {l : Language} {pixels : List Pixel} {i n : Nat} {v w : Visit} {key : String}

/-- One of the visits from `i` on, before `j`, binds the key. -/
def BindsIn (l : Language) (pixels : List Pixel) (i j : Nat) (key : String) : Prop :=
  ∃ m u, i ≤ m ∧ m < j ∧ (l.visits pixels)[m]? = some u ∧ key ∈ u.boundKeys

/-- **Where a name comes from**: what resolves at a visit resolved at any visit before, or one of
the visits since has bound it. -/
theorem resolves_since (hv : (l.visits pixels)[i]? = some v)
    (hw : (l.visits pixels)[i + n]? = some w) (h : (w.state.scope.get? key).isSome) :
    (v.state.scope.get? key).isSome ∨ l.BindsIn pixels i (i + n) key := by
  induction n generalizing w with
  | zero =>
    obtain rfl : v = w := Option.some.inj (hv.symm.trans hw)
    exact .inl h
  | succ n ih =>
    obtain ⟨u, hu, hthen⟩ := exists_then hw
    rcases hthen.resolves h with h | h
    · rcases ih hu h with h | ⟨m, x, him, hmn, hx, hkey⟩
      · exact .inl h
      · exact .inr ⟨m, x, him, by omega, hx, hkey⟩
    · exact .inr ⟨i + n, u, by omega, by omega, hu, h⟩

end Language

end PixelLang
