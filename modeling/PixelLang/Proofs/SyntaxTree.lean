import PixelLang.Proofs.Grammar
import PixelLang.Proofs.Nesting

/-!
# Scopes follow the syntax tree

A `Tree` is a program with its structure: which statement is the body of which head, and which
`else` belongs to which `if`. Its `layers` are the scopes that a reader of the tree expects at each
entry. A run knows the keywords before and after an entry only, and still opens and leaves scopes
such that these are the ones on its stack (`scopes_follow_tree`).

The induction is on the tree, with any entries after it (`Tree.nesting_append`). A statement starts
with the layers around it on the stack, once that is settled (`Ready`). What it leaves there is
settled to the innermost block by the next statement, or by an `else` to the layers of its `if`
(`Tree.Leaves`).
-/

set_option autoImplicit false

namespace PixelLang

/-! ## Trees -/

inductive Phrase
  | program
  | stmt
  /-- A statement after which an `else` can stand. -/
  | plain
  | block

/-- An entry with the keyword. -/
abbrev EntryOf (k : Keyword) := { e : Entry // e.keyword = k }

/-- The syntax trees of phrases. -/
inductive Tree : Phrase → Type
  | empty : Tree .program
  | more (first : Tree .stmt) (rest : Tree .program) : Tree .program
  | plain (t : Tree .plain) : Tree .stmt
  | whileDo (head : EntryOf .whileLoop) (body : Tree .stmt) : Tree .stmt
  | ifDo (head : EntryOf .ifThen) (body : Tree .stmt) : Tree .stmt
  | ifElse (head : EntryOf .ifThen) (body : Tree .plain) (alternative : EntryOf .orElse)
      (other : Tree .stmt) : Tree .stmt
  | forEach (head : EntryOf .forEach) (body : Tree .block) : Tree .stmt
  | function (head : EntryOf .declare) (body : Tree .block) : Tree .stmt
  | simple (e : Entry) (h : e.keyword.isSimple) : Tree .plain
  | block (t : Tree .block) : Tree .plain
  | braces (opener : EntryOf .blockOpen) (body : Tree .program) (closer : EntryOf .blockClose) :
      Tree .block

/-- The keyword of the first of some entries. -/
def firstKeyword (q : List Entry) : Option Keyword := q.head?.map (·.keyword)

namespace Tree

/-- The entries of a tree, in order. -/
def entries {p : Phrase} : Tree p → List Entry
  | empty => []
  | more first rest => first.entries ++ rest.entries
  | plain t => t.entries
  | whileDo head body => head.1 :: body.entries
  | ifDo head body => head.1 :: body.entries
  | ifElse head body alternative other =>
    head.1 :: (body.entries ++ alternative.1 :: other.entries)
  | forEach head body => head.1 :: body.entries
  | function head body => head.1 :: body.entries
  | simple e _ => [e]
  | block t => t.entries
  | braces opener body closer => opener.1 :: (body.entries ++ [closer.1])

/-- No declaration that is a statement of its own has a block after it; `next` is the keyword after
the tree. -/
def Formed {p : Phrase} (next : Option Keyword) : Tree p → Prop
  | empty => True
  | more first rest => first.Formed ((firstKeyword rest.entries).or next) ∧ rest.Formed next
  | plain t => t.Formed next
  | whileDo _ body => body.Formed next
  | ifDo _ body => body.Formed next
  | ifElse _ body _ other => body.Formed (some .orElse) ∧ other.Formed next
  | forEach _ body => body.Formed next
  | function _ body => body.Formed next
  | simple e _ => ¬(e.keyword = .declare ∧ next = some .blockOpen)
  | block t => t.Formed next
  | braces _ body _ => body.Formed (some .blockClose)

def isBlock : Tree .stmt → Bool
  | plain (block _) => true
  | _ => false

def isIf : Tree .stmt → Bool
  | ifDo .. | ifElse .. => true
  | _ => false

/-- The layers inside the body of a head: a scope of its own, unless the body is a block, or an `if`
after an `else`. -/
def inBody (body : Tree .stmt) (head : Entry) (around : List Layer) : List Layer :=
  if body.isBlock || (head.keyword == .orElse && body.isIf) then around
  else ⟨true, head, head.keyword⟩ :: around

/-- The layers at each entry of a tree, the innermost first, where those of `around` are around the
tree. If it is a block, `owner` is the keyword that it belongs to. -/
def layers {p : Phrase} (owner : Keyword) (around : List Layer) : Tree p → List (List Layer)
  | empty => []
  | more first rest => first.layers .blockOpen around ++ rest.layers .blockOpen around
  | plain t => t.layers owner around
  | whileDo head body => around :: body.layers .whileLoop (body.inBody head around)
  | ifDo head body => around :: body.layers .ifThen (body.inBody head around)
  | ifElse head body alternative other =>
    around :: (body.layers .ifThen ((plain body).inBody head around) ++
      around :: other.layers .orElse (other.inBody alternative around))
  | forEach _ body => around :: body.layers .forEach around
  | function _ body => around :: body.layers .declare around
  | simple _ _ => [around]
  | block t => t.layers owner around
  | braces opener body _ =>
    let inside := ⟨false, opener, owner⟩ :: around
    around :: (body.layers .blockOpen inside ++ [inside])

/-! ## The first keyword -/

theorem firstKeyword_append (q q' : List Entry) :
    firstKeyword (q ++ q') = (firstKeyword q).or (firstKeyword q') := by
  rw [firstKeyword, List.head?_append, Option.map_or]
  rfl

/-- A block starts with the entry that opens it. -/
theorem firstKeyword_block (t : Tree .block) (rest : List Entry) :
    firstKeyword (t.entries ++ rest) = some .blockOpen := by
  cases t with
  | braces opener => exact congrArg some opener.2

/-- A statement starts with a keyword that tells whether it is a block or an `if`. -/
theorem firstKeyword_stmt (t : Tree .stmt) (rest : List Entry) :
    ∃ k, firstKeyword (t.entries ++ rest) = some k ∧ k ≠ .blockClose ∧ k ≠ .orElse ∧
      t.isBlock = decide (k = .blockOpen) ∧ t.isIf = decide (k = .ifThen) := by
  cases t with
  | plain t =>
    cases t with
    | simple e h =>
      have hne (k : Keyword) (hk : k.isSimple = false) : e.keyword ≠ k := by
        rintro rfl
        exact Bool.false_ne_true (hk.symm.trans h)
      exact ⟨e.keyword, rfl, hne _ rfl, hne _ rfl, (decide_eq_false (hne _ rfl)).symm,
        (decide_eq_false (hne _ rfl)).symm⟩
    | block t => exact ⟨.blockOpen, t.firstKeyword_block rest, nofun, nofun, rfl, rfl⟩
  | whileDo head => exact ⟨.whileLoop, congrArg some head.2, nofun, nofun, rfl, rfl⟩
  | ifDo head => exact ⟨.ifThen, congrArg some head.2, nofun, nofun, rfl, rfl⟩
  | ifElse head => exact ⟨.ifThen, congrArg some head.2, nofun, nofun, rfl, rfl⟩
  | forEach head => exact ⟨.forEach, congrArg some head.2, nofun, nofun, rfl, rfl⟩
  | function head => exact ⟨.declare, congrArg some head.2, nofun, nofun, rfl, rfl⟩

/-- No program starts with an `else`. -/
theorem firstKeyword_program_ne (t : Tree .program) {rest : List Entry}
    (h : firstKeyword rest ≠ some .orElse) : firstKeyword (t.entries ++ rest) ≠ some .orElse := by
  cases t with
  | empty => exact h
  | more first t =>
    obtain ⟨k, hk, -, hne, -⟩ := first.firstKeyword_stmt (t.entries ++ rest)
    rw [entries, List.append_assoc, hk]
    exact fun h => hne (Option.some.inj h)

/-- The keyword after a head tells whether its body is in a scope of its own. -/
theorem inBody_eq (body : Tree .stmt) {head : Entry} (hk : head.keyword.isHead)
    (around : List Layer) (previous : Option Keyword) (rest : List Entry) :
    layersOpened previous (firstKeyword (body.entries ++ rest)) head ++ around =
      body.inBody head around := by
  obtain ⟨first, hfirst, hclose, -, hblock, hif⟩ := body.firstKeyword_stmt rest
  rw [hfirst, inBody, hblock, hif, layersOpened]
  cases hhead : head.keyword with
  | ifThen | orElse | whileLoop =>
    cases first <;> first | contradiction | rfl
  | _ => simp [hhead, Keyword.isHead] at hk

end Tree

/-! ## Before and after a phrase -/

/-- Settled before `next`, the stack has the layers `around`; a block that comes next belongs to
`owner`. -/
structure Ready (previous next : Option Keyword) (stack : List Layer) (owner : Keyword)
    (around : List Layer) : Prop where
  settled : settledStack (·.temporary) previous next stack = around
  owned : next = some .blockOpen → blockOwner previous = owner

namespace Ready

variable {previous : Option Keyword} {stack around : List Layer} {owner k : Keyword} {e : Entry}

/-- An entry is visited in the layers that the stack is ready for. -/
theorem nesting_cons (h : Ready previous (some e.keyword) stack owner around) (q : List Entry) :
    nesting previous (e :: q) stack =
      around :: nesting (some e.keyword) q
        (layersOpened previous (firstKeyword q) e ++ around) := by
  rw [nesting]
  simp only [h.settled]
  rfl

/-- After a head the stack is ready for its body. -/
theorem head (h : Ready previous (some e.keyword) stack owner around) (he : e.keyword = k)
    (hk : k.isHead) (body : Tree .stmt) (rest : List Entry) :
    nesting previous (e :: (body.entries ++ rest)) stack =
        around :: nesting (some k) (body.entries ++ rest) (body.inBody e around) ∧
      Ready (some k) (firstKeyword (body.entries ++ rest)) (body.inBody e around) k
        (body.inBody e around) := by
  subst he
  refine ⟨by rw [h.nesting_cons, body.inBody_eq hk], ?_, fun _ => ?_⟩
  all_goals cases hkeyword : e.keyword <;> first | rfl | simp [hkeyword, Keyword.isHead] at hk

/-- After a loop over a collection or a declaration the stack is ready for the block. -/
theorem beforeBlock (h : Ready previous (some e.keyword) stack owner around) (he : e.keyword = k)
    (hk : State.bodyFollows k (some .blockOpen)) (body : Tree .block) (rest : List Entry) :
    nesting previous (e :: (body.entries ++ rest)) stack =
        around :: nesting (some k) (body.entries ++ rest) around ∧
      Ready (some k) (firstKeyword (body.entries ++ rest)) around k around := by
  subst he
  rw [h.nesting_cons, body.firstKeyword_block, layersOpened]
  cases hkeyword : e.keyword with
  | forEach | declare => exact ⟨rfl, rfl, fun _ => rfl⟩
  | _ => rw [hkeyword] at hk; exact absurd hk Bool.false_ne_true

/-- Inside a block the stack is ready for anything. -/
theorem inBlock (h : Ready previous (some e.keyword) stack owner around)
    (he : e.keyword = .blockOpen) (q : List Entry) :
    nesting previous (e :: q) stack =
        around :: nesting (some .blockOpen) q (⟨false, e, owner⟩ :: around) ∧
      Ready (some .blockOpen) (firstKeyword q) (⟨false, e, owner⟩ :: around) .blockOpen
        (⟨false, e, owner⟩ :: around) := by
  have howner : blockOwner previous = owner := h.owned (congrArg some he)
  rw [h.nesting_cons, layersOpened, he, howner]
  exact ⟨rfl, rfl, fun _ => rfl⟩

end Ready

namespace Tree

/-- The layers to which an `else` after a tree settles what is left, where it can stand. -/
def beforeElse? {p : Phrase} (around : List Layer) : Tree p → Option (List Layer)
  | simple .. => some (dropTemporary (·.temporary) around)
  | block _ | braces .. => some around
  | _ => none

/-- What a tree leaves to the statement after it: the layers around it, without the bodies that it
ends. -/
structure Leaves {p : Phrase} (t : Tree p) (around : List Layer) (previous next : Option Keyword)
    (stack : List Layer) : Prop where
  ready : next ≠ some .orElse →
    Ready previous next stack .blockOpen (around.dropWhile (·.temporary))
  beforeElse : next = some .orElse → ∀ outer, t.beforeElse? around = some outer →
    settledStack (·.temporary) previous next stack = outer

theorem dropWhile_inBody (body : Tree .stmt) (head : Entry) (around : List Layer) :
    (body.inBody head around).dropWhile (·.temporary) = around.dropWhile (·.temporary) := by
  unfold inBody
  split <;> rfl

theorem settledStack_simple {k : Keyword} (h : k.isSimple) (next : Option Keyword)
    (stack : List Layer) :
    settledStack (·.temporary) (some k) next stack =
      if next = some .orElse then dropTemporary (·.temporary) stack
      else if State.bodyFollows k next then stack else stack.dropWhile (·.temporary) := by
  cases k <;> first | rfl | exact absurd h Bool.false_ne_true

theorem layersOpened_simple {e : Entry} (h : e.keyword.isSimple) (previous next : Option Keyword) :
    layersOpened previous next e = [] := by
  rw [layersOpened]
  cases hk : e.keyword <;> first | rfl | (rw [hk] at h; exact absurd h Bool.false_ne_true)

/-- A declaration that stands for itself has no block after it, so that no block belongs to it. -/
theorem bodyFollows_simple {k : Keyword} (h : k.isSimple) {next : Option Keyword}
    (hformed : ¬(k = .declare ∧ next = some .blockOpen)) :
    State.bodyFollows k next = false ∧
      (next = some .blockOpen → blockOwner (some k) = .blockOpen) := by
  cases k with
  | declare =>
    have hne : next ≠ some .blockOpen := fun hnext => hformed ⟨rfl, hnext⟩
    exact ⟨by simp [State.bodyFollows, hne], fun hnext => absurd hnext hne⟩
  | call | ret | print | struct => exact ⟨Bool.and_false _, fun _ => rfl⟩
  | _ => exact absurd h Bool.false_ne_true

/-- A statement that stands for itself ends all bodies around it, and before an `else` the one of
its `if`. -/
theorem leaves_simple {e : Entry} (h : e.keyword.isSimple) {next : Option Keyword}
    (hformed : (simple e h).Formed next) (around : List Layer) :
    (simple e h).Leaves around (some e.keyword) next around where
  ready hne := by
    obtain ⟨hfollows, howner⟩ := bodyFollows_simple h hformed
    refine ⟨?_, howner⟩
    rw [settledStack_simple h, if_neg hne, hfollows]
    rfl
  beforeElse hnext outer houter := by
    rw [settledStack_simple h, if_pos hnext]
    exact Option.some.inj houter

/-- The end of a block leaves it, and then ends all bodies around it; before an `else` it ends
none. -/
theorem leaves_braces (opener : EntryOf .blockOpen) (body : Tree .program)
    (closer : EntryOf .blockClose) {inside : Layer} (hinside : inside.temporary = false)
    (around : List Layer) (next : Option Keyword) :
    (braces opener body closer).Leaves around (some .blockClose) next (inside :: around) where
  ready hne := by
    refine ⟨?_, fun _ => rfl⟩
    simp [settledStack_close, hne, hinside]
  beforeElse hnext outer houter := by
    obtain rfl : around = outer := Option.some.inj houter
    simp [settledStack_close, hnext, hinside]

/-- An `else` leaves the scope of the body before it, if that has one. -/
theorem beforeElse?_inBody (body : Tree .plain) (head : EntryOf .ifThen) (around : List Layer) :
    body.beforeElse? ((plain body).inBody head around) = some around := by
  cases body with
  | simple e h => rw [inBody, head.2]; rfl
  | block t => rfl

/-- A tree after a head leaves what the whole statement does. -/
theorem Leaves.of_dropWhile {p p' : Phrase} {t : Tree p} {t' : Tree p'}
    {around around' stack : List Layer} {previous next : Option Keyword}
    (h : t.Leaves around previous next stack)
    (haround : around.dropWhile (·.temporary) = around'.dropWhile (·.temporary))
    (helse : t'.beforeElse? around' = none) : t'.Leaves around' previous next stack where
  ready hne := haround ▸ h.ready hne
  beforeElse _ outer houter := by
    rw [helse] at houter
    cases houter

/-- **Induction on the tree.** In front of any other entries, the layers at the entries of a tree
are its own, and after it the stack is as `Leaves` says. -/
theorem nesting_append {p : Phrase} (t : Tree p) {previous : Option Keyword}
    {stack around : List Layer} {owner : Keyword} {rest : List Entry}
    (hformed : t.Formed (firstKeyword rest))
    (hready : Ready previous (firstKeyword (t.entries ++ rest)) stack owner around)
    (hprogram : p = .program → owner = .blockOpen ∧
      around.dropWhile (·.temporary) = around ∧ firstKeyword rest ≠ some .orElse) :
    ∃ previous' stack',
      nesting previous (t.entries ++ rest) stack =
        t.layers owner around ++ nesting previous' rest stack' ∧
      t.Leaves around previous' (firstKeyword rest) stack' := by
  induction t generalizing previous stack around owner rest with
  | empty =>
    obtain ⟨rfl, hbase, hne⟩ := hprogram rfl
    refine ⟨previous, stack, rfl, fun _ => ?_, fun h => absurd h hne⟩
    rw [hbase]
    exact hready
  | more first t ihfirst iht =>
    obtain ⟨rfl, hbase, hne⟩ := hprogram rfl
    rw [entries, List.append_assoc] at hready ⊢
    obtain ⟨previous₁, stack₁, heq₁, hleaves₁⟩ := ihfirst (by
      rw [firstKeyword_append]; exact hformed.1) hready nofun
    have hready₁ := hleaves₁.ready (t.firstKeyword_program_ne hne)
    rw [hbase] at hready₁
    obtain ⟨previous₂, stack₂, heq₂, hleaves₂⟩ := iht hformed.2 hready₁ fun _ => ⟨rfl, hbase, hne⟩
    refine ⟨previous₂, stack₂, ?_, hleaves₂.of_dropWhile rfl rfl⟩
    rw [heq₁, heq₂, layers, List.append_assoc]
  | plain t ih =>
    obtain ⟨previous₁, stack₁, heq, hleaves⟩ := ih hformed hready nofun
    exact ⟨previous₁, stack₁, heq, hleaves.of_dropWhile rfl rfl⟩
  | whileDo head body ih | ifDo head body ih =>
    obtain ⟨heq₁, hready₁⟩ := Ready.head (e := head.1) hready head.2 rfl body rest
    obtain ⟨previous₂, stack₂, heq₂, hleaves⟩ := ih hformed hready₁ nofun
    refine ⟨previous₂, stack₂, ?_, hleaves.of_dropWhile (body.dropWhile_inBody ..) rfl⟩
    rw [entries, List.cons_append, heq₁, heq₂]
    rfl
  | ifElse head body alternative other ihbody ihother =>
    have helse : firstKeyword (alternative.1 :: (other.entries ++ rest)) = some .orElse :=
      congrArg some alternative.2
    obtain ⟨heq₁, hready₁⟩ := Ready.head (e := head.1) hready head.2 rfl (plain body)
      (alternative.1 :: (other.entries ++ rest))
    obtain ⟨previous₂, stack₂, heq₂, hleaves₂⟩ := ihbody (helse ▸ hformed.1) hready₁ nofun
    -- the `else` finds the layers around the `if`
    have hready₂ : Ready previous₂ (some alternative.1.keyword) stack₂ owner around :=
      ⟨hleaves₂.beforeElse helse around (body.beforeElse?_inBody head around),
        fun h => by rw [alternative.2] at h; cases h⟩
    obtain ⟨heq₃, hready₃⟩ := Ready.head hready₂ alternative.2 rfl other rest
    obtain ⟨previous₄, stack₄, heq₄, hleaves₄⟩ := ihother hformed.2 hready₃ nofun
    refine ⟨previous₄, stack₄, ?_, hleaves₄.of_dropWhile (other.dropWhile_inBody ..) rfl⟩
    rw [entries, List.cons_append, List.append_assoc, List.cons_append]
    refine heq₁.trans ?_
    rw [show (plain body).entries = body.entries from rfl, heq₂, heq₃, heq₄, layers]
    simp
  | forEach head body ih | function head body ih =>
    obtain ⟨heq₁, hready₁⟩ := Ready.beforeBlock (e := head.1) hready head.2 rfl body rest
    obtain ⟨previous₂, stack₂, heq₂, hleaves⟩ := ih hformed hready₁ nofun
    refine ⟨previous₂, stack₂, ?_, hleaves.of_dropWhile rfl rfl⟩
    rw [entries, List.cons_append, heq₁, heq₂]
    rfl
  | simple e h =>
    refine ⟨some e.keyword, around, ?_, leaves_simple h hformed around⟩
    rw [entries, List.singleton_append, Ready.nesting_cons hready, layersOpened_simple h]
    rfl
  | block t ih =>
    obtain ⟨previous₁, stack₁, heq, hleaves⟩ := ih hformed hready nofun
    refine ⟨previous₁, stack₁, heq, hleaves.ready, ?_⟩
    cases t with
    | braces => exact hleaves.beforeElse
  | braces opener body closer ih =>
    have hclose : firstKeyword (closer.1 :: rest) = some .blockClose := congrArg some closer.2
    have hne : firstKeyword (closer.1 :: rest) ≠ some .orElse := by rw [hclose]; nofun
    obtain ⟨heq₁, hready₁⟩ := Ready.inBlock (e := opener.1) hready opener.2
      (body.entries ++ closer.1 :: rest)
    obtain ⟨previous₂, stack₂, heq₂, hleaves₂⟩ := ih (hclose ▸ hformed) hready₁
      fun _ => ⟨rfl, rfl, hne⟩
    have hready₂ : Ready previous₂ (some closer.1.keyword) stack₂ .blockOpen
        (⟨false, opener.1, owner⟩ :: around) := hleaves₂.ready hne
    have hopened : layersOpened previous₂ (firstKeyword rest) closer = [] := by
      rw [layersOpened, closer.2]
      rfl
    refine ⟨some .blockClose, ⟨false, opener.1, owner⟩ :: around, ?_,
      leaves_braces opener body closer rfl around _⟩
    rw [entries, List.cons_append, List.append_assoc, List.singleton_append, heq₁, heq₂,
      hready₂.nesting_cons, hopened, closer.2, layers]
    simp

/-- The layers of a program are those of its entries. -/
theorem nesting_entries (t : Tree .program) (hformed : t.Formed none) :
    nesting none t.entries [] = t.layers .blockOpen [] := by
  have hend : t.Formed (firstKeyword []) := hformed
  have hready : Ready none (firstKeyword (t.entries ++ [])) [] .blockOpen [] :=
    ⟨rfl, fun _ => rfl⟩
  obtain ⟨previous, stack, heq, -⟩ := t.nesting_append hend hready fun _ => ⟨rfl, rfl, nofun⟩
  simpa [nesting] using heq

end Tree

namespace Language

/-- **The scopes follow the syntax tree.** If the queue of a program is that of a tree, in which no
declaration before a block stands for itself, then each entry is visited, and the scopes at it are
those of the tree: one for each block that it is inside of, and a temporary one for each body of a
head that it is in, unless that is a block or an `if` after an `else`; each belongs to the keyword
that opened it. -/
theorem scopes_follow_tree (l : Language) (pixels : List Pixel) (t : Tree .program)
    (hqueue : t.entries = enqueue (subdivide pixels)) (hformed : t.Formed none) :
    (l.visits pixels).map (·.entry) = t.entries ∧
      List.Forall₂ (fun v layers => List.Forall₂ Layer.Describes layers v.state.scope.outlines)
        (l.visits pixels) (t.layers .blockOpen []) := by
  refine ⟨(map_entry_visits l pixels).trans hqueue.symm, ?_⟩
  rw [← t.nesting_entries hformed, hqueue]
  refine State.forall₂_nesting _ ?_ fun h => ?_
  · rw [outlines_startState]
    exact .nil
  · rw [(startState_spec l _).2.2] at h
    cases h

end Language

/-! ## A program with every sort of body -/

/-- A bare keyword in the first row. -/
def bareEntry (k : Keyword) (x : Nat) : EntryOf k :=
  ⟨⟨k, ⟨⟨⟨0, 0, 0, 255⟩, x, 0, .keyword k⟩, []⟩, 1⟩, rfl⟩

/-- In a loop, an `if` with a single statement and an `else` with a block, in which a function is
declared; then one more statement. -/
def Tree.loopOfChoice : Tree .program :=
  let function : Tree .stmt :=
    .function (bareEntry .declare 5)
      (.braces (bareEntry .blockOpen 6) (.more (.plain (.simple (bareEntry .print 7) rfl)) .empty)
        (bareEntry .blockClose 8))
  let choice : Tree .stmt :=
    .ifElse (bareEntry .ifThen 1) (.simple (bareEntry .print 2) rfl) (bareEntry .orElse 3)
      (.plain (.block (.braces (bareEntry .blockOpen 4) (.more function .empty)
        (bareEntry .blockClose 9))))
  .more (.whileDo (bareEntry .whileLoop 0) choice)
    (.more (.plain (.simple (bareEntry .call 10) rfl)) .empty)

/-- The pixels of the program. -/
def Tree.loopOfChoicePixels : List Pixel := loopOfChoice.entries.flatMap (·.partition.pixels)

theorem Language.scopes_loopOfChoice :
    Tree.loopOfChoice.entries = enqueue (subdivide Tree.loopOfChoicePixels) ∧
      Tree.loopOfChoice.Formed none ∧
      List.Forall₂ (fun v layers => List.Forall₂ Layer.Describes layers v.state.scope.outlines)
        (Language.standard.visits Tree.loopOfChoicePixels)
        (Tree.loopOfChoice.layers .blockOpen []) ∧
      (Tree.loopOfChoice.layers .blockOpen []).map (·.map fun layer =>
          (layer.temporary, layer.owner, layer.opener.place.1)) =
        [[], [(true, .whileLoop, 0)], [(true, .ifThen, 1), (true, .whileLoop, 0)],
          [(true, .whileLoop, 0)], [(true, .whileLoop, 0)],
          [(false, .orElse, 4), (true, .whileLoop, 0)],
          [(false, .orElse, 4), (true, .whileLoop, 0)],
          [(false, .declare, 6), (false, .orElse, 4), (true, .whileLoop, 0)],
          [(false, .declare, 6), (false, .orElse, 4), (true, .whileLoop, 0)],
          [(false, .orElse, 4), (true, .whileLoop, 0)], []] := by
  have hqueue : Tree.loopOfChoice.entries = enqueue (subdivide Tree.loopOfChoicePixels) := by
    decide
  have hformed : Tree.loopOfChoice.Formed none := by
    simp [Tree.loopOfChoice, Tree.Formed, bareEntry]
  exact ⟨hqueue, hformed, (scopes_follow_tree .standard _ _ hqueue hformed).2, by decide⟩

end PixelLang
