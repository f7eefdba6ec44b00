import Mathlib.Data.List.Forall2
import PixelLang.Proofs.Visits

/-!
# Scopes by keywords

Which scopes are open at a statement depends on the keywords alone, whatever the statements read and
report. `nesting` computes the scopes of a queue as `Layer`s, each named by the entry that opened
it; `State.forall₂_nesting` says that the scopes of a run are those.

One thing does depend on more: the block of a function belongs to the declaration only if that was
one, and else to itself (`Layer.Describes`).
-/

set_option autoImplicit false

namespace PixelLang

/-- A scope, without the names in it. -/
structure Layer where
  temporary : Bool
  /-- The entry that opened it. -/
  opener : Entry
  /-- The keyword of the statement whose body it is. -/
  owner : Keyword

/-- The frame is the scope of the layer: its owner stands at the keyword that opened it. The block
after a declaration that failed is its own owner. -/
def Layer.Describes (layer : Layer) (frame : Outline) : Prop :=
  frame.temporary = layer.temporary ∧
    ∃ owner, frame.owner = some owner ∧ (owner.x, owner.y) = layer.opener.place ∧
      (owner.keyword = layer.owner ∨ layer.owner = .declare ∧ owner.keyword = .blockOpen)

/-- The keyword that a block belongs to, by the keyword before it. -/
def blockOwner (previous : Option Keyword) : Keyword :=
  match previous with
  | some .declare => .declare
  | some .ifThen => .ifThen
  | some .orElse => .orElse
  | some .forEach => .forEach
  | some .whileLoop => .whileLoop
  | _ => .blockOpen

/-- The layer that an entry opens, if it opens one. -/
def layersOpened (previous next : Option Keyword) (e : Entry) : List Layer :=
  if e.keyword.traits.opensBlock then [⟨false, e, blockOwner previous⟩]
  else if e.keyword.traits.opensTemporary && State.takesTemporary e.keyword next then
    [⟨true, e, e.keyword⟩]
  else []

/-- The layers at each entry of a queue that comes after `previous`, where `stack` are the layers
before; the innermost first. -/
def nesting : (previous : Option Keyword) → List Entry → (stack : List Layer) → List (List Layer)
  | _, [], _ => []
  | previous, e :: rest, stack =>
    let settled := settledStack (·.temporary) previous (some e.keyword) stack
    settled :: nesting (some e.keyword) rest
      (layersOpened previous (rest.head?.map (·.keyword)) e ++ settled)

/-! ## Settling -/

section
variable {α β : Type} {R : α → β → Prop} {t : α → Bool} {t' : β → Bool} {as : List α} {bs : List β}

theorem forall₂_dropWhile (ht : ∀ a b, R a b → t a = t' b) (h : List.Forall₂ R as bs) :
    List.Forall₂ R (as.dropWhile t) (bs.dropWhile t') := by
  induction h with
  | nil => exact .nil
  | @cons a b as bs hab hrest ih =>
    have hflag := ht a b hab
    cases hb : t' b with
    | true => simpa [hflag, hb] using ih
    | false => simpa [hflag, hb] using ⟨hab, hrest⟩

theorem forall₂_dropTemporary (ht : ∀ a b, R a b → t a = t' b) (h : List.Forall₂ R as bs) :
    List.Forall₂ R (dropTemporary t as) (dropTemporary t' bs) := by
  cases h with
  | nil => exact .nil
  | cons hab hrest =>
    rw [dropTemporary, dropTemporary, ht _ _ hab]
    split
    · exact hrest
    · exact .cons hab hrest

/-- Stacks that agree frame by frame still do when they are settled. -/
theorem forall₂_settledStack (ht : ∀ a b, R a b → t a = t' b) (previous current : Option Keyword)
    (h : List.Forall₂ R as bs) :
    List.Forall₂ R (settledStack t previous current as) (settledStack t' previous current bs) := by
  have houter : List.Forall₂ R (as.dropWhile t).tail (bs.dropWhile t').tail := by
    simpa using List.forall₂_drop 1 (forall₂_dropWhile ht h)
  cases previous with
  | none => exact h
  | some k =>
    simp only [settledStack]
    repeat' split
    · exact h
    · exact houter
    · exact forall₂_dropWhile ht houter
    · exact forall₂_dropTemporary ht h
    · exact h
    · exact forall₂_dropWhile ht h

end

/-! ## The run -/

/-- A function that waits for the block was declared just before. -/
theorem ownerKeyword_blockOpen {previous : Option Keyword} {declaresFunction : Bool}
    (h : declaresFunction = true → previous = some .declare) :
    State.ownerKeyword .blockOpen previous declaresFunction = blockOwner previous ∨
      blockOwner previous = .declare ∧
        State.ownerKeyword .blockOpen previous declaresFunction = .blockOpen := by
  cases declaresFunction with
  | true =>
    rw [h rfl]
    exact .inl rfl
  | false =>
    rcases previous with _ | k
    · exact .inl rfl
    · cases k with
      | declare => exact .inr ⟨rfl, rfl⟩
      | _ => exact .inl rfl

/-- Only a declaration leaves a function that waits for its block. -/
theorem Keyword.pending_generate {k : Keyword} (h : k ≠ .declare) (ctx : Context) (r : Reader) :
    (k.generate ctx r).1.pending = none := by
  unfold generate
  cases k with
  | declare => contradiction
  | call =>
    simp only [generator, generateCall]
    split <;> rfl
  | ret =>
    simp only [generator, generateLeave]
    split <;> rfl
  | struct =>
    simp only [generator, generateStruct]
    split <;> rfl
  | _ => rfl

namespace Visit

theorem pending_after (v : Visit) :
    v.after.pending.isSome → some v.entry.keyword = some .declare := by
  intro h
  by_contra hne
  have hpending : v.after.pending = none :=
    Keyword.pending_generate (fun hk => hne (congrArg some hk)) v.context _
  rw [hpending] at h
  exact Bool.false_ne_true h

/-- The layer of an entry describes the frame that it opens. -/
theorem describes_opened (v : Visit)
    (hpending : v.state.pending.isSome → v.previous = some .declare) :
    List.Forall₂ Layer.Describes (layersOpened v.previous v.next v.entry)
      (State.opened v.context v.entry) := by
  rw [layersOpened, State.opened, State.opening?, show v.context.next = v.next from rfl]
  split
  · -- a block belongs to the head before it, or to a function that waits
    rename_i hopen
    have hkeyword : v.entry.keyword = .blockOpen := by
      cases hk : v.entry.keyword <;> simp_all [Keyword.traits]
    have hfunction : v.context.declaresFunction = true → v.previous = some .declare :=
      fun h => hpending (Bool.and_eq_true_iff.1 h).2
    refine .cons ⟨rfl, _, rfl, rfl, ?_⟩ .nil
    rw [show (State.entryOwner v.context v.entry).keyword =
      State.ownerKeyword v.entry.keyword v.previous v.context.declaresFunction from rfl, hkeyword]
    exact ownerKeyword_blockOpen hfunction
  · split
    · rename_i hblock _
      have hkeyword : v.entry.keyword ≠ .blockOpen := by
        rintro hk
        rw [hk] at hblock
        exact hblock rfl
      exact .cons ⟨rfl, _, rfl, rfl, .inl (if_pos hkeyword)⟩ .nil
    · exact .nil

end Visit

/-- **The scopes of a run** are the layers of its keywords. -/
theorem State.forall₂_nesting (q : List Entry) {previous : Option Keyword} {stack : List Layer}
    {s : State} (hstack : List.Forall₂ Layer.Describes stack s.scope.outlines)
    (hpending : s.pending.isSome → previous = some .declare) :
    List.Forall₂ (fun v layers => List.Forall₂ Layer.Describes layers v.state.scope.outlines)
      (visits previous q s) (nesting previous q stack) := by
  induction q generalizing previous stack s with
  | nil => exact .nil
  | cons e rest ih =>
    let v := s.visit previous e rest
    have hsettled : List.Forall₂ Layer.Describes
        (settledStack (·.temporary) previous (some e.keyword) stack) v.state.scope.outlines := by
      rw [show v.state = s.settle previous (some e.keyword) from rfl, outlines_settle]
      exact forall₂_settledStack (fun _ _ h => h.1.symm) _ _ hstack
    have hpending' : v.state.pending = s.pending := by
      obtain ⟨log, heq, -⟩ := leaves_settle previous (some e.keyword) s
      rw [show v.state = s.settle previous (some e.keyword) from rfl, heq]
    refine .cons hsettled (ih ?_ v.pending_after)
    rw [v.outlines_after]
    exact List.rel_append (v.describes_opened (hpending' ▸ hpending)) hsettled

end PixelLang
