import PixelLang.Proofs.Floors
import PixelLang.Proofs.Nesting
import PixelLang.Proofs.Validity

/-!
# Choices

What an `else` finds of the `if` before it. Scopes are settled before an `else` by looking at one
keyword back: it leaves one temporary scope, and none after a block.

* `State.scopeAtElse_eq_iff`: that is the scope of the `if` exactly if the body of the `if` is a
  single keyword or a block. After any other body at least the scope of that body is still there
  (`Whole.depth_le`), with what it binds.
* `Language.else_in_scope_iff`: the same for two entries of a program.
* `Language.else_accepted`: nothing looks for the `if`. An `else` can stand in front of every
  statement but the block of a loop (`derives_insert_else_iff`).
-/

set_option autoImplicit false

namespace PixelLang

/-! ## Whole statements -/

/-- The keywords of a whole statement. All that completes a statement belongs to it: its block to
a function, and an `else` to its `if`. -/
inductive Whole : List Keyword → Prop
  | simple {k : Keyword} : k.isSimple → Whole [k]
  | block {ks : List Keyword} : Derives .block ks → Whole ks
  | loop {ks : List Keyword} : Derives .block ks → Whole (.forEach :: ks)
  | function {ks : List Keyword} : Derives .block ks → Whole (.declare :: ks)
  | head {k : Keyword} {ks : List Keyword} : k.isHead → Whole ks → Whole (k :: ks)
  | choice {body other : List Keyword} :
    Whole body → Whole other → Whole (.ifThen :: (body ++ .orElse :: other))

/-- A single keyword or a block. -/
def isPlain : List Keyword → Bool
  | [_] => true
  | .blockOpen :: _ => true
  | _ => false

theorem Derives.openAfter {c : Category} {ks : List Keyword} (h : Derives c ks) (n : Nat) :
    openAfter n ks = some n := by
  induction h generalizing n with
  | empty => rfl
  | more _ _ ihs ihp => rw [openAfter_append, ihs, Option.bind_some, ihp]
  | @simple k hk => cases k <;> first | rfl | exact absurd hk Bool.false_ne_true
  | @head k _ hk _ ih =>
    rw [openAfter_cons, blockCount_of_ne, Option.bind_some, ih]
    all_goals rintro rfl; exact absurd hk Bool.false_ne_true
  | forEach _ ih => exact ih n
  | block _ ih => exact ih n
  | braces _ ih =>
    rw [List.cons_append, openAfter_cons]
    show PixelLang.openAfter (n + 1) _ = _
    rw [openAfter_append, ih]
    rfl

theorem Derives.two_le_length {ks : List Keyword} (h : Derives .block ks) : 2 ≤ ks.length := by
  cases h
  simp

namespace Whole

variable {ks : List Keyword}

theorem length_pos (h : Whole ks) : 0 < ks.length := by
  cases h with
  | block hb =>
    have := hb.two_le_length
    omega
  | _ => simp

/-- A whole statement of one keyword is a simple one. -/
theorem simple_of_length (h : Whole ks) (hlen : ks.length = 1) :
    ∃ k : Keyword, k.isSimple ∧ ks = [k] := by
  cases h with
  | @simple k hk => exact ⟨k, hk, rfl⟩
  | block hb =>
    have := hb.two_le_length
    omega
  | loop hb | function hb =>
    have := hb.two_le_length
    rw [List.length_cons] at hlen
    omega
  | head _ hs =>
    have := hs.length_pos
    rw [List.length_cons] at hlen
    omega
  | choice hs =>
    have := hs.length_pos
    rw [List.length_cons, List.length_append] at hlen
    omega

theorem head?_ne_close (h : Whole ks) : ks.head? ≠ some .blockClose := by
  cases h with
  | @simple k hk | @head k _ hk _ => rintro ⟨⟩; exact absurd hk Bool.false_ne_true
  | block hb => rw [hb.head?_block]; nofun
  | _ => nofun

theorem block_of_head? (h : Whole ks) (hopen : ks.head? = some .blockOpen) : Derives .block ks := by
  cases h with
  | simple hk | head hk => cases hopen; exact absurd hk Bool.false_ne_true
  | block hb => exact hb
  | _ => cases hopen

end Whole

/-! ## Bodies of one statement -/

theorem Keyword.opens_of_isHead {k : Keyword} (h : k.isHead) : k.traits.opens = true := by
  cases k <;> first | rfl | exact absurd h Bool.false_ne_true

theorem Keyword.opens_of_isSimple {k : Keyword} (h : k.isSimple) : k.traits.opens = false := by
  cases k <;> first | rfl | exact absurd h Bool.false_ne_true

theorem State.opening?_head {ctx : Context} {k first : Keyword} (hk : k.isHead)
    (hnext : ctx.next = some first) (hfirst : first.isSimple) : opening? ctx k = some true := by
  cases k with
  | ifThen | orElse | whileLoop =>
    cases first <;>
      first
        | exact absurd hfirst Bool.false_ne_true
        | simp [opening?, hnext, Keyword.traits, takesTemporary]
  | _ => exact absurd hk Bool.false_ne_true

/-- Every body of an `if` but a block is in a temporary scope. -/
theorem State.opening?_ifThen {ctx : Context} {first : Keyword} (hnext : ctx.next = some first)
    (hclose : first ≠ .blockClose) :
    opening? ctx .ifThen = if first = .blockOpen then none else some true := by
  cases first <;> first | contradiction | simp [opening?, hnext, Keyword.traits, takesTemporary]

namespace Scope

@[simp]
theorem length_outlines (s : Scope) : s.outlines.length = s.depth := List.length_map _

/-- The scope is `base` with one temporary frame inside it. -/
def Topped (base s : Scope) : Prop :=
  ∃ frame, frame.temporary = true ∧ s = { base with frames := frame :: base.frames }

theorem Topped.define {base s : Scope} (h : Topped base s) (key : String) (m : Member) :
    Topped base (s.define key m) := by
  obtain ⟨frame, htemp, rfl⟩ := h
  exact ⟨{ frame with members := frame.members.insert key m }, htemp, rfl⟩

end Scope

open Scope (Topped)

namespace Visit

variable {v : Visit}

theorem depth_bound (v : Visit) :
    (v.state.bound v.context v.generated).depth = v.state.scope.depth := by
  rw [← Scope.length_outlines, State.outlines_bound, Scope.length_outlines]

/-- A visit that opens no scope only binds its names. -/
theorem scope_after_of_not_opens (h : v.entry.keyword.traits.opens = false) :
    v.after.scope = v.state.bound v.context v.generated := by
  obtain ⟨hblock, htemp⟩ := Bool.or_eq_false_iff.1 h
  simp [scope_after, State.scopeAfter, State.opening?, hblock, htemp]

theorem depth_after (v : Visit) :
    v.after.scope.depth =
      (State.opening? v.context v.entry.keyword).toList.length + v.state.scope.depth := by
  rw [← Scope.length_outlines, v.outlines_after, List.length_append, Scope.length_outlines,
    State.opened, List.length_map]

/-- A visit that neither defines a name nor completes a function binds nothing. -/
theorem bound_eq_scope (hdef : v.generated.definitions = [])
    (hfun : v.context.declaresFunction = false) :
    v.state.bound v.context v.generated = v.state.scope := by
  unfold State.bound
  rw [hdef, hfun]
  cases v.state.pending <;> rfl

theorem bound_ifThen (h : v.entry.keyword = .ifThen) :
    v.state.bound v.context v.generated = v.state.scope := by
  refine bound_eq_scope ?_ ?_
  · rw [generated, h]
    rfl
  · rw [context, State.context, h]
    rfl

theorem bound_blockOpen (h : v.entry.keyword = .blockOpen) (hpending : v.state.pending = none) :
    v.state.bound v.context v.generated = v.state.scope := by
  refine bound_eq_scope ?_ ?_
  · rw [generated, h]
    rfl
  · rw [context, State.context, hpending]
    exact Bool.and_false _

end Visit

/-! ## Settling around one keyword -/

theorem length_le_dropTemporary {α : Type} {temporary : α → Bool} (stack : List α) :
    stack.length ≤ (dropTemporary temporary stack).length + 1 := by
  cases stack with
  | nil => exact Nat.zero_le _
  | cons frame outer =>
    rw [dropTemporary]
    split <;> simp

namespace State

variable {s : State} {k : Keyword}

theorem scope_settle_opens (h : k.traits.opens = true) (current : Option Keyword) :
    (s.settle (some k) current).scope = s.scope := by
  rw [scope_settle, settledStack, if_pos h]

theorem scope_settle_bodyFollows (h : k = .forEach ∨ k = .declare) :
    (s.settle (some k) (some .blockOpen)).scope = s.scope := by
  rw [scope_settle]
  rcases h with rfl | rfl <;> rfl

theorem scope_settle_simple (h : k.isSimple) :
    (s.settle (some k) (some .orElse)).scope =
      { s.scope with frames := dropTemporary (·.temporary) s.scope.frames } := by
  rw [scope_settle]
  cases k <;> first | rfl | exact absurd h Bool.false_ne_true

/-! ## The scope at an `else` -/

/-- The scope in which an `else` is generated that comes after the entries `q`. -/
def scopeAtElse (rest : List Entry) (previous : Option Keyword) (q : List Entry) (s : State) :
    Scope :=
  ((passed rest previous q s).settle (lastKeyword previous q) (some .orElse)).scope

theorem scopeAtElse_cons (rest : List Entry) (previous : Option Keyword) (e : Entry)
    (q : List Entry) (s : State) :
    scopeAtElse rest previous (e :: q) s =
      scopeAtElse rest (some e.keyword) q (s.visit previous e (q ++ rest)).after := rfl

theorem scopeAtElse_append (rest : List Entry) (previous : Option Keyword) (q q' : List Entry)
    (s : State) :
    scopeAtElse rest previous (q ++ q') s =
      scopeAtElse rest (lastKeyword previous q) q' (passed (q' ++ rest) previous q s) := by
  rw [scopeAtElse, passed_append, lastKeyword_append]
  rfl

/-- After a block an `else` is in the scope in which the block was opened. -/
theorem scopeAtElse_block {q : List Entry} (h : Derives .block (q.map Entry.keyword))
    (rest : List Entry) (previous : Option Keyword) (s : State) :
    ∃ opener q', q = opener :: q' ∧ opener.keyword = .blockOpen ∧
      scopeAtElse rest previous q s =
        (s.visit previous opener (q' ++ rest)).state.bound
          (s.visit previous opener (q' ++ rest)).context
          (s.visit previous opener (q' ++ rest)).generated := by
  generalize hks : q.map Entry.keyword = ks at h
  cases h with
  | @braces inner hinner =>
    obtain ⟨opener, q', rfl, hopen, hq'⟩ := List.map_eq_cons_iff.1 hks
    obtain ⟨body, closers, rfl, hbody, hclosers⟩ := List.map_eq_append_iff.1 hq'
    obtain ⟨closer, nothing, rfl, hclose, hnothing⟩ := List.map_eq_cons_iff.1 hclosers
    obtain rfl := List.map_eq_nil_iff.1 hnothing
    refine ⟨opener, _, rfl, hopen, ?_⟩
    have hblock := @scope_block previous s opener closer body hopen hclose
      (hbody ▸ hinner.openAfter 0) rest (some .orElse)
    rw [scopeAtElse, show lastKeyword previous (opener :: (body ++ [closer])) =
      lastKeyword (some opener.keyword) (body ++ [closer]) from rfl, lastKeyword_append,
      show lastKeyword (lastKeyword (some opener.keyword) body) [closer] = some closer.keyword
      from rfl, hclose]
    simpa using hblock

/-- What `Whole.depth_le` says of the entries `q`, from every state and in front of all others. -/
def KeepsDepth (q : List Entry) : Prop :=
  ∀ (rest : List Entry) (previous : Option Keyword) (s : State),
    (s.settle previous (q.head?.map Entry.keyword)).scope.depth ≤
      (scopeAtElse rest previous q s).depth + if q.length = 1 then 1 else 0

theorem keepsDepth_block {q : List Entry} (h : Derives .block (q.map Entry.keyword)) :
    KeepsDepth q := by
  intro rest previous s
  obtain ⟨opener, q', rfl, -, hscope⟩ := scopeAtElse_block h rest previous s
  rw [hscope, Visit.depth_bound]
  exact Nat.le_add_right _ _

/-- A loop over a collection and a function are left in the scope in which they start. -/
theorem keepsDepth_beforeBlock {e : Entry} (he : e.keyword = .forEach ∨ e.keyword = .declare)
    {q : List Entry} (h : Derives .block (q.map Entry.keyword)) : KeepsDepth (e :: q) := by
  intro rest previous s
  have hopens : e.keyword.traits.opens = false := by rcases he with he | he <;> rw [he] <;> rfl
  obtain ⟨opener, q', rfl, hopen, hscope⟩ :=
    scopeAtElse_block h rest (some e.keyword) (s.visit previous e (q ++ rest)).after
  rw [scopeAtElse_cons, hscope, Visit.depth_bound]
  show _ ≤ (settle (some e.keyword) (some opener.keyword) _).scope.depth + _
  rw [hopen, scope_settle_bodyFollows he,
    Visit.scope_after_of_not_opens (v := s.visit previous e (opener :: q' ++ rest)) hopens,
    Visit.depth_bound]
  exact Nat.le_add_right _ _

/-- If the body of a head is in a temporary scope, only the body's own statement leaves it. -/
theorem depth_head {e : Entry} (he : e.keyword.isHead) {q : List Entry}
    (hwhole : Whole (q.map Entry.keyword)) (hq : KeepsDepth q) (rest : List Entry)
    (previous : Option Keyword) (s : State) :
    (s.settle previous (some e.keyword)).scope.depth ≤
      (scopeAtElse rest previous (e :: q) s).depth := by
  have hbody := hq rest (some e.keyword) (s.visit previous e (q ++ rest)).after
  rw [scope_settle_opens (Keyword.opens_of_isHead he), Visit.depth_after,
    ← scopeAtElse_cons] at hbody
  show (s.visit previous e (q ++ rest)).state.scope.depth ≤ _
  by_cases hlen : q.length = 1
  · -- the scope of the body makes up for the one that is left
    obtain ⟨k, hk, hks⟩ := hwhole.simple_of_length (by simpa using hlen)
    obtain ⟨b, q', rfl, rfl, -⟩ := List.map_eq_cons_iff.1 hks
    rw [show (s.visit previous e (b :: q' ++ rest)).entry = e from rfl, opening?_head he rfl hk,
      if_pos hlen] at hbody
    simp only [Option.toList_some, List.length_singleton] at hbody
    omega
  · rw [if_neg hlen] at hbody
    omega

theorem keepsDepth_head {e : Entry} (he : e.keyword.isHead) {q : List Entry}
    (hwhole : Whole (q.map Entry.keyword)) (hq : KeepsDepth q) : KeepsDepth (e :: q) :=
  fun rest previous s =>
    Nat.le_trans (depth_head he hwhole hq rest previous s) (Nat.le_add_right _ _)

end State

open State in
/-- **An `else` leaves at most one scope, and that only of a single keyword**: after a whole
statement it is at least as deep as the start of the statement. -/
theorem Whole.depth_le {ks : List Keyword} (h : Whole ks) {q : List Entry}
    (hq : q.map Entry.keyword = ks) : KeepsDepth q := by
  induction h generalizing q with
  | simple hk =>
    obtain ⟨e, q', rfl, rfl, hq'⟩ := List.map_eq_cons_iff.1 hq
    obtain rfl := List.map_eq_nil_iff.1 hq'
    intro rest previous s
    have hdepth := (s.visit previous e rest).depth_bound
    rw [← Visit.scope_after_of_not_opens (Keyword.opens_of_isSimple hk)] at hdepth
    rw [scopeAtElse_cons]
    show _ ≤ (State.settle (some e.keyword) (some .orElse) _).scope.depth + 1
    rw [scope_settle_simple hk]
    exact Nat.le_trans (Nat.le_of_eq hdepth.symm) (length_le_dropTemporary _)
  | block hb => exact keepsDepth_block (hq ▸ hb)
  | loop hb =>
    obtain ⟨e, q', rfl, he, rfl⟩ := List.map_eq_cons_iff.1 hq
    exact keepsDepth_beforeBlock (.inl he) hb
  | function hb =>
    obtain ⟨e, q', rfl, he, rfl⟩ := List.map_eq_cons_iff.1 hq
    exact keepsDepth_beforeBlock (.inr he) hb
  | head hk hs ih =>
    obtain ⟨e, q', rfl, rfl, rfl⟩ := List.map_eq_cons_iff.1 hq
    exact keepsDepth_head hk hs (ih rfl)
  | choice hbody hother ihbody ihother =>
    obtain ⟨e, q', rfl, he, hq'⟩ := List.map_eq_cons_iff.1 hq
    obtain ⟨body, q'', rfl, rfl, hq''⟩ := List.map_eq_append_iff.1 hq'
    obtain ⟨alternative, other, rfl, halt, rfl⟩ := List.map_eq_cons_iff.1 hq''
    intro rest previous s
    -- from the `if` to the `else`, and from there to the end
    have hfirst := depth_head (by rw [he]; rfl) hbody (ihbody rfl)
      (alternative :: other ++ rest) previous s
    have hsecond := depth_head (e := alternative) (by rw [halt]; rfl) hother (ihother rfl) rest
      (lastKeyword previous (e :: body))
      (passed (alternative :: other ++ rest) previous (e :: body) s)
    rw [halt] at hsecond
    rw [← List.cons_append, scopeAtElse_append]
    exact Nat.le_trans (Nat.le_trans hfirst hsecond) (Nat.le_add_right _ _)

/-! ## Bodies after which the scope is that of the `if` -/

namespace State

variable {e : Entry}

theorem scopeAtElse_ifThen_simple (he : e.keyword = .ifThen) {b : Entry} (hb : b.keyword.isSimple)
    (rest : List Entry) (previous : Option Keyword) (s : State) :
    scopeAtElse rest previous [e, b] s = (s.settle previous (some e.keyword)).scope := by
  let v := s.visit previous e (b :: rest)
  let u := v.after.visit (some e.keyword) b rest
  have hopening : opening? v.context v.entry.keyword = some true :=
    opening?_head (by rw [show v.entry.keyword = .ifThen from he]; rfl) rfl hb
  have hafter : Topped v.state.scope v.after.scope := by
    rw [Visit.scope_after, scopeAfter, hopening, Visit.bound_ifThen he]
    exact ⟨_, rfl, rfl⟩
  -- the body binds its names in the temporary scope
  have hbody : Topped v.state.scope u.after.scope := by
    rw [Visit.scope_after_of_not_opens (Keyword.opens_of_isSimple hb)]
    refine bound_of_define (P := Topped v.state.scope) (fun _ key m h => h.define key m) ?_ _ _
    rw [show u.state = v.after.settle (some e.keyword) (some b.keyword) from rfl,
      scope_settle_opens (by rw [he]; rfl)]
    exact hafter
  obtain ⟨frame, htemp, hscope⟩ := hbody
  show (u.after.settle (some b.keyword) (some .orElse)).scope = v.state.scope
  rw [scope_settle_simple hb, hscope, dropTemporary, if_pos htemp]

theorem scopeAtElse_ifThen_block (he : e.keyword = .ifThen) {q : List Entry}
    (hq : Derives .block (q.map Entry.keyword)) (rest : List Entry) (previous : Option Keyword)
    (s : State) :
    scopeAtElse rest previous (e :: q) s = (s.settle previous (some e.keyword)).scope := by
  let v := s.visit previous e (q ++ rest)
  obtain ⟨opener, q', rfl, hopen, hscope⟩ := scopeAtElse_block hq rest (some e.keyword) v.after
  let u := v.after.visit (some e.keyword) opener (q' ++ rest)
  have hpending : u.state.pending = none := by
    rw [show u.state = v.after.settle (some e.keyword) (some opener.keyword) from rfl,
      pending_settle]
    exact Keyword.pending_generate (by rw [show v.entry.keyword = .ifThen from he]; nofun) _ _
  have hclose : opener.keyword ≠ .blockClose := by rw [hopen]; nofun
  have hopening : opening? v.context v.entry.keyword = none := by
    rw [show v.entry.keyword = .ifThen from he, opening?_ifThen rfl hclose, if_pos hopen]
  have hafter : v.after.scope = v.state.scope := by
    rw [Visit.scope_after, scopeAfter, hopening, Visit.bound_ifThen he]
  rw [scopeAtElse_cons, hscope, Visit.bound_blockOpen hopen hpending]
  show (v.after.settle (some e.keyword) (some opener.keyword)).scope = v.state.scope
  rw [scope_settle_opens (by rw [he]; rfl), hafter]

/-- **An `else` is in the scope of the `if` exactly if the body is a single keyword or a block.** -/
theorem scopeAtElse_eq_iff (he : e.keyword = .ifThen) {body : List Entry}
    (hbody : Whole (body.map Entry.keyword)) (rest : List Entry) (previous : Option Keyword)
    (s : State) :
    scopeAtElse rest previous (e :: body) s = (s.settle previous (some e.keyword)).scope ↔
      isPlain (body.map Entry.keyword) := by
  rcases body with _ | ⟨b, q⟩
  · exact absurd hbody.length_pos (Nat.lt_irrefl 0)
  by_cases hopen : b.keyword = .blockOpen
  · have hblock := hbody.block_of_head? (congrArg some hopen)
    refine iff_of_true (scopeAtElse_ifThen_block he hblock rest previous s) ?_
    rw [List.map_cons, hopen]
    cases q.map Entry.keyword <;> rfl
  by_cases hq : q = []
  · subst hq
    obtain ⟨k, hk, heq⟩ := hbody.simple_of_length rfl
    obtain rfl : b.keyword = k := by simpa using heq
    exact iff_of_true (scopeAtElse_ifThen_simple he hk rest previous s) rfl
  · -- the body is in a temporary scope, which nothing leaves
    let v := s.visit previous e (b :: q ++ rest)
    have hclose : b.keyword ≠ .blockClose := fun h => hbody.head?_ne_close (congrArg some h)
    have hopening : opening? v.context v.entry.keyword = some true := by
      rw [show v.entry.keyword = .ifThen from he, opening?_ifThen rfl hclose, if_neg hopen]
    have hdepth := v.depth_after
    have hkeeps := hbody.depth_le rfl rest (some e.keyword) v.after
    have hlen : (b :: q).length ≠ 1 := fun h => hq (List.length_eq_zero_iff.1 (Nat.succ.inj h))
    rw [if_neg hlen, scope_settle_opens (by rw [he]; rfl), hdepth, hopening] at hkeeps
    refine iff_of_false (fun heq => ?_) ?_
    · rw [scopeAtElse_cons] at heq
      rw [heq] at hkeeps
      exact absurd hkeeps (Nat.not_le.2 (Nat.lt_add_of_pos_left Nat.one_pos))
    · cases q with
      | nil => contradiction
      | cons b' q =>
        rw [List.map_cons, List.map_cons]
        cases hb : b.keyword <;> first | contradiction | exact Bool.false_ne_true

end State

namespace Language

variable {pixels : List Pixel} {before body after : List Entry} {head alternative : Entry}

/-- The visit `w`, which has the number `j`, is in the scope of `v`, and from then on no name
resolves that was bound between the two. -/
structure InScopeOf (l : Language) (pixels : List Pixel) (v : Visit) (j : Nat) (w : Visit) :
    Prop where
  scope : w.state.scope = v.state.scope
  resolves : ∀ (n : Nat) (u : Visit) (key : String), (l.visits pixels)[j + n]? = some u →
    (u.state.scope.get? key).isSome →
    (v.state.scope.get? key).isSome ∨ l.BindsIn pixels j (j + n) key

/-- **When an `else` is in the scope of its `if`.** Let there be a whole statement between an `if`
and an `else` of the queue. The `else` is generated in the scope of the `if` exactly if that
statement is a single keyword or a block. -/
theorem else_in_scope_iff (l : Language)
    (hqueue : enqueue (subdivide pixels) = before ++ head :: body ++ alternative :: after)
    (hhead : head.keyword = .ifThen) (halternative : alternative.keyword = .orElse)
    (hbody : Whole (body.map Entry.keyword)) :
    ∃ v w, (l.visits pixels)[before.length]? = some v ∧ v.entry = head ∧
      (l.visits pixels)[(before ++ head :: body).length]? = some w ∧ w.entry = alternative ∧
      (l.InScopeOf pixels v (before ++ head :: body).length w ↔
        isPlain (body.map Entry.keyword)) := by
  let start := l.startState (subdivide pixels)
  let previous := lastKeyword none before
  let s := State.passed (head :: body ++ alternative :: after) none before start
  have hv : (l.visits pixels)[before.length]? =
      some (s.visit previous head (body ++ alternative :: after)) := by
    rw [visits, hqueue, List.append_assoc]
    exact State.getElem?_visits none before head (body ++ alternative :: after) start
  have hw := State.getElem?_visits none (before ++ head :: body) alternative after start
  rw [← hqueue, ← visits] at hw
  refine ⟨_, _, hv, rfl, hw, rfl, ?_⟩
  -- the state of the second visit is reached from that of the first
  have hscope : ((State.passed (alternative :: after) none (before ++ head :: body) start).visit
      (lastKeyword none (before ++ head :: body)) alternative after).state.scope =
      State.scopeAtElse (alternative :: after) previous (head :: body) s := by
    show (State.settle _ (some alternative.keyword) _).scope = _
    rw [halternative]
    exact State.scopeAtElse_append (alternative :: after) none before (head :: body) start
  rw [← State.scopeAtElse_eq_iff hhead hbody (alternative :: after) previous s, ← hscope]
  refine ⟨fun h => h.scope, fun heq => ⟨heq, fun n u key hu hkey => ?_⟩⟩
  have hsince := resolves_since hw hu hkey
  rwa [heq] at hsince

/-- A loop as the body of an `if` that has an `else`. -/
def loopInChoice : List Entry :=
  [rowEntry .ifThen 0 [rowPixel (.boolean true) 1] 1, rowEntry .whileLoop 2 [] 1,
    rowEntry .print 3 [] 1, rowEntry .orElse 4 [] 1, rowEntry .print 5 [] 1]

/-- The program is not invalidated, and its `else` is not in the scope of the `if`. -/
theorem else_loopInChoice :
    let pixels := loopInChoice.flatMap (·.partition.pixels)
    (standard.evaluatePixels pixels).invalidated = false ∧
      ∃ v w, (standard.visits pixels)[0]? = some v ∧ v.entry.keyword = .ifThen ∧
        (standard.visits pixels)[3]? = some w ∧ w.entry.keyword = .orElse ∧
        ¬standard.InScopeOf pixels v 3 w := by
  refine ⟨by decide +kernel, ?_⟩
  have hqueue : enqueue (subdivide (loopInChoice.flatMap (·.partition.pixels))) = loopInChoice := by
    decide
  obtain ⟨v, w, hv, hventry, hw, hwentry, hiff⟩ :=
    @else_in_scope_iff _ [] [rowEntry .whileLoop 2 [] 1, rowEntry .print 3 [] 1] _ _ _ standard
      hqueue rfl rfl (.head rfl (.simple rfl))
  exact ⟨v, w, hv, by rw [hventry]; rfl, hw, by rw [hwentry]; rfl,
    fun h => Bool.false_ne_true (hiff.1 h)⟩

end Language

/-! ## An `else` without an `if` -/

theorem placed_cons_iff (depth : Nat) (k : Keyword) (rest : List Keyword) :
    Placed depth (k :: rest) ↔
      k.MayPrecede rest.head? ∧
        ∃ depth', blockCount depth k = some depth' ∧ Placed depth' rest := by
  cases k with
  | blockClose => cases depth <;> simp [Placed, blockCount]
  | _ => simp [Placed, blockCount]

theorem Placed.of_append {depth : Nat} {ks rest : List Keyword} (h : Placed depth (ks ++ rest)) :
    ∃ depth', Placed depth' rest := by
  induction ks generalizing depth with
  | nil => exact ⟨depth, h⟩
  | cons k ks ih =>
    obtain ⟨-, depth', -, h⟩ := (placed_cons_iff depth k (ks ++ rest)).1 h
    exact ih h

/-- What may precede a statement may precede an `else`, unless it needs a block. -/
theorem mayPrecede_else_iff {k : Keyword} {next : Option Keyword}
    (hnext : next ≠ none ∧ next ≠ some .blockClose) :
    k.MayPrecede (some .orElse) ↔ k.MayPrecede next ∧ k ≠ .forEach := by
  cases k <;> simp [Keyword.MayPrecede, hnext]

theorem placed_insert_else_iff (depth : Nat) (ks rest : List Keyword) :
    Placed depth (ks ++ .orElse :: rest) ↔
      (rest.head? ≠ none ∧ rest.head? ≠ some .blockClose) ∧ ks.getLast? ≠ some .forEach ∧
        Placed depth (ks ++ rest) := by
  induction ks generalizing depth with
  | nil =>
    rw [List.nil_append, List.nil_append, placed_cons_head rfl]
    exact and_congr_right fun _ => (and_iff_right nofun).symm
  | cons k ks ih =>
    rw [List.cons_append, List.cons_append, placed_cons_iff, placed_cons_iff]
    simp only [ih]
    cases ks with
    | nil =>
      simp only [List.nil_append, List.head?_cons, List.getLast?_singleton, List.getLast?_nil]
      constructor
      · rintro ⟨hk, depth', hcount, hrest, -, hplaced⟩
        obtain ⟨hmay, hne⟩ := (mayPrecede_else_iff hrest).1 hk
        exact ⟨hrest, fun h => hne (Option.some.inj h), hmay, depth', hcount, hplaced⟩
      · rintro ⟨hrest, hne, hmay, depth', hcount, hplaced⟩
        have hk := (mayPrecede_else_iff hrest).2 ⟨hmay, fun h => hne (congrArg some h)⟩
        exact ⟨hk, depth', hcount, hrest, nofun, hplaced⟩
    | cons k' ks =>
      rw [List.getLast?_cons_cons]
      simp only [List.cons_append, List.head?_cons]
      constructor
      · rintro ⟨hk, depth', hcount, hrest, hne, hplaced⟩
        exact ⟨hrest, hne, hk, depth', hcount, hplaced⟩
      · rintro ⟨hrest, hne, hk, depth', hcount, hplaced⟩
        exact ⟨hk, depth', hcount, hrest, hne, hplaced⟩

/-- **An `else` may stand in front of every statement** but the block of a loop, whatever is
before. -/
theorem derives_insert_else_iff (ks rest : List Keyword) :
    Derives .program (ks ++ .orElse :: rest) ↔
      (rest.head? ≠ none ∧ rest.head? ≠ some .blockClose) ∧ ks.getLast? ≠ some .forEach ∧
        Derives .program (ks ++ rest) := by
  rw [derives_iff_placed, derives_iff_placed, placed_insert_else_iff]

/-- After an `else` comes its body. -/
theorem Derives.stmt_after_else {ks rest : List Keyword}
    (h : Derives .program (ks ++ .orElse :: rest)) :
    ∃ body others, rest = body ++ others ∧ Derives .stmt body := by
  obtain ⟨depth, hplaced⟩ := ((derives_iff_placed _).1 h).of_append
  obtain ⟨hnext, hplaced⟩ := (placed_cons_head rfl _ _).1 hplaced
  obtain ⟨program, others, rfl, hprogram, hends⟩ := hplaced.split
  obtain ⟨body, more, rfl, hbody, -⟩ := hprogram.stmt_of_ends hends hnext
  exact ⟨body, more ++ others, List.append_assoc .., hbody⟩

namespace Language

variable {pixels : List Pixel} {before after : List Entry} {alternative : Entry}

/-- **What is asked of an `else`.** It reports nothing exactly if it is the keyword alone and a
statement follows in its block. In a program that is not invalidated its body follows, it is not in
the place of the block of a loop, and without it the program is one as well: an `if` before it is
not needed. -/
theorem else_accepted (l : Language)
    (hqueue : enqueue (subdivide pixels) = before ++ alternative :: after)
    (halternative : alternative.keyword = .orElse) :
    (∃ v, (l.visits pixels)[before.length]? = some v ∧ v.entry = alternative ∧
      (v.reader.diagnostics = [] ↔
        alternative.partition.isBare ∧ after ≠ [] ∧
          after.head?.map Entry.keyword ≠ some .blockClose)) ∧
    ((l.evaluatePixels pixels).invalidated = false →
      (∃ body others, after.map Entry.keyword = body ++ others ∧ Derives .stmt body) ∧
      (before.map Entry.keyword).getLast? ≠ some .forEach ∧
      Derives .program ((before ++ after).map Entry.keyword)) := by
  constructor
  · have hv := State.getElem?_visits none before alternative after (l.startState (subdivide pixels))
    rw [← hqueue, ← visits] at hv
    refine ⟨_, hv, rfl, ?_⟩
    rw [Visit.diagnostics_eq_nil_iff (.inl halternative)]
    refine and_congr_right fun _ => ?_
    show alternative.keyword.misplaced? _ = none ↔ _
    rw [halternative, Keyword.misplaced?]
    show (if after.head?.map Entry.keyword = none ∨ after.head?.map Entry.keyword = some .blockClose
      then some (Problem.noBody .orElse) else none) = none ↔ _
    simp
  · intro hvalid
    have hderives := derives_of_valid hvalid
    rw [hqueue, List.map_append, List.map_cons, halternative] at hderives
    obtain ⟨-, hne, hwithout⟩ := (derives_insert_else_iff _ _).1 hderives
    rw [List.map_append]
    exact ⟨hderives.stmt_after_else, hne, hwithout⟩

/-- An `else` and its body, with nothing before. -/
def danglingElse : List Entry := [rowEntry .orElse 0 [] 1, rowEntry .print 1 [] 1]

theorem dangling_else :
    ¬∀ (l : Language) (pixels : List Pixel), (l.evaluatePixels pixels).invalidated = false →
      ∀ (before after : List Entry) (alternative : Entry),
        enqueue (subdivide pixels) = before ++ alternative :: after →
        alternative.keyword = .orElse →
        ∃ earlier head body, before = earlier ++ head :: body ∧ head.keyword = .ifThen ∧
          Whole (body.map Entry.keyword) := by
  intro h
  have hvalid : (standard.evaluatePixels (danglingElse.flatMap (·.partition.pixels))).invalidated =
      false := by decide +kernel
  have hqueue : enqueue (subdivide (danglingElse.flatMap (·.partition.pixels))) = danglingElse := by
    decide
  obtain ⟨earlier, head, body, hbefore, -⟩ := h standard _ hvalid [] _ _ hqueue rfl
  cases earlier <;> cases hbefore

theorem else_danglingElse :
    let pixels := danglingElse.flatMap (·.partition.pixels)
    (standard.evaluatePixels pixels).invalidated = false ∧
      ∃ v, (standard.visits pixels)[0]? = some v ∧ v.entry.keyword = .orElse ∧
        v.reader.diagnostics = [] ∧
        ∃ body others, [.print] = body ++ others ∧ Derives .stmt body := by
  have hvalid : (standard.evaluatePixels (danglingElse.flatMap (·.partition.pixels))).invalidated =
      false := by decide +kernel
  have hqueue : enqueue (subdivide (danglingElse.flatMap (·.partition.pixels))) = danglingElse := by
    decide
  obtain ⟨⟨v, hv, hentry, hiff⟩, hgrammar⟩ := @else_accepted _ [] _ _ standard hqueue rfl
  exact ⟨hvalid, v, hv, by rw [hentry]; rfl, hiff.2 (by decide), (hgrammar hvalid).1⟩

end Language

end PixelLang
