import PixelLang.Proofs.Blocks

/-!
# The grammar of statements

A program is never parsed: each statement looks at the next one only, and the ends of blocks are
checked against the scopes. `structured_iff_derives` says that together these checks accept exactly
the sequences of keywords that `Derives` builds.

Between the two lies `Placed`, the checks as one pass over the keywords that counts the open blocks.
What is derived is placed, in front of anything that is (`Derives.placed_append`); what is placed
splits into a derived program and the end of the block around it (`Placed.split`).
-/

set_option autoImplicit false

namespace PixelLang

/-! ## Derivations -/

/-- The keyword is a statement of its own. -/
def Keyword.isSimple : Keyword → Bool
  | declare | call | ret | print | struct => true
  | _ => false

/-- The keyword is the head of a statement, with any statement as its body. -/
def Keyword.isHead : Keyword → Bool
  | ifThen | orElse | whileLoop => true
  | _ => false

theorem Keyword.shape (k : Keyword) :
    k.isSimple ∨ k.isHead ∨ k = forEach ∨ k = blockOpen ∨ k = blockClose := by
  cases k <;> simp [isSimple, isHead]

/-- The categories of the grammar. -/
inductive Category
  | program
  | stmt
  | block

/-- The keywords are those of a phrase of the category. -/
inductive Derives : Category → List Keyword → Prop
  | empty : Derives .program []
  | more {ks rest : List Keyword} :
    Derives .stmt ks → Derives .program rest → Derives .program (ks ++ rest)
  | simple {k : Keyword} : k.isSimple → Derives .stmt [k]
  | head {k : Keyword} {ks : List Keyword} : k.isHead → Derives .stmt ks → Derives .stmt (k :: ks)
  | forEach {ks : List Keyword} : Derives .block ks → Derives .stmt (.forEach :: ks)
  | block {ks : List Keyword} : Derives .block ks → Derives .stmt ks
  | braces {ks : List Keyword} :
    Derives .program ks → Derives .block (.blockOpen :: ks ++ [.blockClose])

namespace Derives

theorem program_cases {ks : List Keyword} (h : Derives .program ks) :
    ks = [] ∨ ∃ s p, ks = s ++ p ∧ Derives .stmt s ∧ Derives .program p := by
  cases h with
  | empty => exact .inl rfl
  | more hs hp => exact .inr ⟨_, _, rfl, hs, hp⟩

theorem head?_block {ks : List Keyword} (h : Derives .block ks) : ks.head? = some .blockOpen := by
  cases h
  rfl

/-- A statement has a first keyword, and it is not the end of a block. -/
theorem head?_stmt {ks : List Keyword} (h : Derives .stmt ks) :
    ∃ k, ks.head? = some k ∧ k ≠ .blockClose := by
  cases h with
  | @simple k hk => exact ⟨k, rfl, by rintro rfl; exact Bool.false_ne_true hk⟩
  | @head k _ hk _ => exact ⟨k, rfl, by rintro rfl; exact Bool.false_ne_true hk⟩
  | forEach => exact ⟨.forEach, rfl, nofun⟩
  | block hb => exact ⟨.blockOpen, hb.head?_block, nofun⟩

/-- A statement that opens a block first is that block. -/
theorem block_of_head? {ks : List Keyword} (h : Derives .stmt ks)
    (hopen : ks.head? = some .blockOpen) : Derives .block ks := by
  cases h with
  | simple hk => cases hopen; exact absurd hk Bool.false_ne_true
  | head hk => cases hopen; exact absurd hk Bool.false_ne_true
  | forEach => cases hopen
  | block hb => exact hb

end Derives

/-! ## One statement after the other -/

/-- A head is followed by a statement, a loop over a collection by a block. -/
def Keyword.MayPrecede (k : Keyword) (next : Option Keyword) : Prop :=
  match k with
  | ifThen | orElse | whileLoop => ¬(next = none ∨ next = some blockClose)
  | forEach => next = some blockOpen
  | _ => True

/-- Every keyword may precede the next. -/
def Follows : List Keyword → Prop
  | [] => True
  | k :: rest => k.MayPrecede rest.head? ∧ Follows rest

/-- The keywords pass all checks, where `depth` blocks are open before. -/
def Placed : (depth : Nat) → List Keyword → Prop
  | depth, [] => depth = 0
  | depth, k :: rest =>
    k.MayPrecede rest.head? ∧
      match k, depth with
      | .blockOpen, depth => Placed (depth + 1) rest
      | .blockClose, 0 => False
      | .blockClose, depth + 1 => Placed depth rest
      | _, depth => Placed depth rest

theorem placed_cons_simple {k : Keyword} (h : k.isSimple) (depth : Nat) (rest : List Keyword) :
    Placed depth (k :: rest) ↔ Placed depth rest := by
  cases k <;> first | exact iff_of_eq (true_and _) | exact absurd h Bool.false_ne_true

theorem placed_cons_head {k : Keyword} (h : k.isHead) (depth : Nat) (rest : List Keyword) :
    Placed depth (k :: rest) ↔
      (rest.head? ≠ none ∧ rest.head? ≠ some .blockClose) ∧ Placed depth rest := by
  cases k <;> first | exact and_congr_left' not_or | exact absurd h Bool.false_ne_true

theorem placed_cons_forEach (depth : Nat) (rest : List Keyword) :
    Placed depth (.forEach :: rest) ↔ rest.head? = some .blockOpen ∧ Placed depth rest := .rfl

theorem placed_cons_open (depth : Nat) (rest : List Keyword) :
    Placed depth (.blockOpen :: rest) ↔ Placed (depth + 1) rest :=
  iff_of_eq (true_and _)

theorem placed_cons_close (depth : Nat) (rest : List Keyword) :
    Placed depth (.blockClose :: rest) ↔ ∃ outer, depth = outer + 1 ∧ Placed outer rest := by
  cases depth with
  | zero => exact ⟨fun h => h.2.elim, nofun⟩
  | succ outer => exact ⟨fun h => ⟨outer, rfl, h.2⟩, by rintro ⟨_, ⟨⟩, h⟩; exact ⟨trivial, h⟩⟩

/-! ## What is derived is placed -/

/-- **What is derived passes the checks**, whatever follows it. -/
theorem Derives.placed_append {c : Category} {ks : List Keyword} (h : Derives c ks) {depth : Nat}
    {rest : List Keyword} (hrest : Placed depth rest) : Placed depth (ks ++ rest) := by
  induction h generalizing depth rest with
  | empty => exact hrest
  | more _ _ ihs ihp =>
    rw [List.append_assoc]
    exact ihs (ihp hrest)
  | simple hk => exact (placed_cons_simple hk _ _).2 hrest
  | @head k ks hk hs ih =>
    obtain ⟨first, hfirst, hne⟩ := hs.head?_stmt
    have hnext : (ks ++ rest).head? = some first := by simp [hfirst]
    refine (placed_cons_head hk _ _).2 ⟨?_, ih hrest⟩
    exact hnext ▸ ⟨Option.some_ne_none _, fun h => hne (Option.some.inj h)⟩
  | @forEach ks hb ih =>
    have hnext : (ks ++ rest).head? = some .blockOpen := by simp [hb.head?_block]
    exact (placed_cons_forEach _ _).2 ⟨hnext, ih hrest⟩
  | block _ ih => exact ih hrest
  | @braces ks _ ih =>
    -- the body is in front of the end of the block, one level down
    have hclose : Placed (depth + 1) (.blockClose :: rest) :=
      (placed_cons_close _ _).2 ⟨depth, rfl, hrest⟩
    rw [List.cons_append, List.cons_append, List.append_assoc]
    exact (placed_cons_open _ _).2 (ih hclose)

/-! ## What is placed is derived -/

/-- What is left of placed keywords after a program: nothing, or the end of the block around it. -/
def Ends : (depth : Nat) → List Keyword → Prop
  | 0, rest => rest = []
  | depth + 1, rest => ∃ tail, rest = .blockClose :: tail ∧ Placed depth tail

/-- What may follow a head is not the end. -/
theorem Ends.head? {depth : Nat} {rest : List Keyword} (h : Ends depth rest) :
    rest.head? = none ∨ rest.head? = some .blockClose := by
  cases depth with
  | zero => exact .inl (by rw [show rest = [] from h]; rfl)
  | succ depth =>
    obtain ⟨tail, rfl, -⟩ := h
    exact .inr rfl

/-- A program before the end, with something else than the end in front, starts with a statement. -/
theorem Derives.stmt_of_ends {depth : Nat} {body rest : List Keyword}
    (hbody : Derives .program body) (hends : Ends depth rest)
    (hne : (body ++ rest).head? ≠ none ∧ (body ++ rest).head? ≠ some .blockClose) :
    ∃ s p, body = s ++ p ∧ Derives .stmt s ∧ Derives .program p := by
  rcases hbody.program_cases with rfl | hsplit
  · rcases hends.head? with h | h
    · exact absurd h hne.1
    · exact absurd h hne.2
  · exact hsplit

/-- **Placed keywords are a program and the end of the block around it.** -/
theorem Placed.split {depth : Nat} {ks : List Keyword} (h : Placed depth ks) :
    ∃ body rest, ks = body ++ rest ∧ Derives .program body ∧ Ends depth rest := by
  -- after a block the rest is split anew, and it is only shorter
  induction hn : ks.length using Nat.strongRecOn generalizing depth ks with
  | ind n ih =>
  subst hn
  cases ks with
  | nil => exact ⟨[], [], rfl, .empty, by rw [show depth = 0 from h]; rfl⟩
  | cons k ks =>
    have hlt : ks.length < (k :: ks).length := Nat.lt_succ_self _
    rcases k.shape with hk | hk | rfl | rfl | rfl
    · obtain ⟨body, rest, rfl, hbody, hends⟩ := ih _ hlt ((placed_cons_simple hk _ _).1 h) rfl
      exact ⟨[k] ++ body, rest, rfl, .more (.simple hk) hbody, hends⟩
    · obtain ⟨hnext, h⟩ := (placed_cons_head hk _ _).1 h
      obtain ⟨body, rest, rfl, hbody, hends⟩ := ih _ hlt h rfl
      obtain ⟨s, p, rfl, hs, hp⟩ := hbody.stmt_of_ends hends hnext
      exact ⟨(k :: s) ++ p, rest, by simp, .more (.head hk hs) hp, hends⟩
    · obtain ⟨hnext, h⟩ := (placed_cons_forEach _ _).1 h
      obtain ⟨body, rest, rfl, hbody, hends⟩ := ih _ hlt h rfl
      obtain ⟨s, p, rfl, hs, hp⟩ := hbody.stmt_of_ends hends (by simp [hnext])
      obtain ⟨first, hfirst, -⟩ := hs.head?_stmt
      have hopen : s.head? = some .blockOpen := by
        simpa [hfirst, List.head?_append] using hnext
      refine ⟨(.forEach :: s) ++ p, rest, by simp, ?_, hends⟩
      exact .more (.forEach (hs.block_of_head? hopen)) hp
    · obtain ⟨body, rest, rfl, hbody, tail, rfl, htail⟩ := ih _ hlt ((placed_cons_open _ _).1 h) rfl
      obtain ⟨body', rest', rfl, hbody', hends⟩ := ih tail.length (by simp; omega) htail rfl
      refine ⟨(.blockOpen :: body ++ [.blockClose]) ++ body', rest', by simp, ?_, hends⟩
      exact .more (.block (.braces hbody)) hbody'
    · obtain ⟨outer, rfl, hks⟩ := (placed_cons_close _ _).1 h
      exact ⟨[], .blockClose :: ks, rfl, .empty, ks, rfl, hks⟩

/-- **The checks are the grammar.** -/
theorem derives_iff_placed (ks : List Keyword) : Derives .program ks ↔ Placed 0 ks := by
  constructor
  · intro h
    simpa using h.placed_append (show Placed 0 [] from rfl)
  · intro h
    obtain ⟨body, rest, rfl, hbody, hends⟩ := h.split
    rw [show rest = [] from hends, List.append_nil]
    exact hbody

/-! ## The checks of a run -/

/-- The checks in one pass are those of each keyword and those of the blocks. -/
theorem placed_iff {α : Type} (keyword : α → Keyword) (items opened : List α) :
    Placed opened.length (items.map keyword) ↔
      Follows (items.map keyword) ∧ straysFrom keyword opened items = [] ∧
        items.foldl (bracketStep keyword) opened = [] := by
  induction items generalizing opened with
  | nil => simp [Placed, Follows, straysFrom]
  | cons a rest ih =>
    have hstep := ih (bracketStep keyword opened a)
    simp only [List.map_cons, Placed, Follows, straysFrom, List.foldl_cons, and_assoc]
    refine and_congr_right fun _ => ?_
    cases hk : keyword a with
    | blockOpen => simpa [bracketStep, hk] using hstep
    | blockClose =>
      cases opened with
      | nil => simp
      | cons b opened => simpa [bracketStep, hk] using hstep
    | _ => simpa [bracketStep, hk] using hstep

/-- The problem is a head without a body or a loop without a block. -/
def Problem.isBodyless : Problem → Bool
  | noBody _ | noLoopBlock => true
  | _ => false

/-- The problem is one of how statements are put together. -/
def Problem.isStructure (p : Problem) : Bool :=
  p.isBodyless || p.isStrayClose || p.isUnclosedBlock

theorem Keyword.filter_misplaced?_eq_none (k : Keyword) (ctx : Context) :
    (k.misplaced? ctx).filter Problem.isBodyless = none ↔ k.MayPrecede ctx.next := by
  cases k with
  | ifThen | orElse | whileLoop | forEach =>
    simp only [misplaced?, MayPrecede]
    split <;> simp_all [Option.filter, Problem.isBodyless]
  | ret =>
    simp only [misplaced?, MayPrecede]
    repeat' split
    all_goals simp [Option.filter, Problem.isBodyless]
  | _ => simp [misplaced?, MayPrecede]

/-- A statement lacks a body or a block exactly if it may not precede the next. -/
theorem Visit.filter_isBodyless_eq_nil (v : Visit)
    (h : v.entry.partition.keyword? = some v.entry.keyword) :
    v.reader.diagnostics.filter (·.problem.isBodyless) = [] ↔
      v.entry.keyword.MayPrecede v.next := by
  rw [v.filter_reader h Problem.isBodyless fun p hp => by cases p <;> first | rfl | exact hp.elim,
    if_neg fun hstray => Bool.false_ne_true hstray.2, List.nil_append, List.map_eq_nil_iff,
    Option.toList_eq_nil_iff, Keyword.filter_misplaced?_eq_none]
  rfl

/-- The keywords follow each other as the visits find. -/
theorem State.follows_visits (previous : Option Keyword) (q : List Entry) (s : State) :
    (∀ v ∈ visits previous q s, v.entry.keyword.MayPrecede v.next) ↔
      Follows (q.map Entry.keyword) := by
  induction q generalizing previous s with
  | nil => simp [visits, Follows]
  | cons e rest ih =>
    rw [visits, List.forall_mem_cons, ih, List.map_cons, Follows, List.head?_map]
    rfl

namespace Language

theorem filter_isBodyless_diagnostics (l : Language) (pixels : List Pixel) :
    (l.evaluatePixels pixels).diagnostics.filter (·.problem.isBodyless) = [] ↔
      Follows ((enqueue (subdivide pixels)).map Entry.keyword) := by
  rw [filter_diagnostics l pixels Problem.isBodyless fun _ => rfl,
    filter_unclosed Problem.isBodyless (fun _ _ => rfl), List.append_nil, List.filter_flatMap,
    List.flatMap_eq_nil_iff, ← State.follows_visits]
  exact forall₂_congr fun v hv => v.filter_isBodyless_eq_nil (keyword_of_mem_visits hv)

/-- **The checks accept exactly the grammar.** No statement lacks its body or its block, no end of a
block is stray and no block is left open if and only if the keywords of the queue are those of a
program. -/
theorem structured_iff_derives (l : Language) (pixels : List Pixel) :
    (∀ d ∈ (l.evaluatePixels pixels).diagnostics, d.problem.isStructure = false) ↔
      Derives .program ((enqueue (subdivide pixels)).map Entry.keyword) := by
  have hsplit : (∀ d ∈ (l.evaluatePixels pixels).diagnostics, d.problem.isStructure = false) ↔
      (l.evaluatePixels pixels).diagnostics.filter (·.problem.isBodyless) = [] ∧
      (l.evaluatePixels pixels).diagnostics.filter (·.problem.isStrayClose) = [] ∧
      (l.evaluatePixels pixels).diagnostics.filter (·.problem.isUnclosedBlock) = [] := by
    simp only [List.filter_eq_nil_iff, Problem.isStructure, Bool.or_eq_false_iff, and_assoc,
      Bool.not_eq_true, forall_and]
  rw [hsplit, filter_isBodyless_diagnostics, filter_isStrayClose_diagnostics,
    filter_isUnclosedBlock_diagnostics, List.map_eq_nil_iff, List.map_eq_nil_iff,
    derives_iff_placed]
  exact (placed_iff Entry.keyword (enqueue (subdivide pixels)) []).symm

end Language

end PixelLang
