import PixelLang.Evaluation

/-!
# Leaving and opening scopes

What a statement does to the stack of frames, without the names bound in them (`Outline`):

* `leaves_settle`: between two statements frames are left, as `settledStack` says, and nothing else
  changes but the log. The global scope is never left; where a block is to be closed and none is
  open, the log has one underflow.
* `outlines_scopeAfter`: a statement opens at most one frame, on top of those that were there.
* `closeRemaining_spec`: at the end every block that is left is reported, the innermost first.
-/

set_option autoImplicit false

namespace PixelLang

/-- The event records that there was no scope to leave. -/
def Event.isUnderflow : Event → Bool
  | globalUnderflow | blockUnderflow => true
  | _ => false

/-! ## The stack of frames -/

section
variable {α β : Type} (temporary : α → Bool)

/-- The stack without its innermost frame, if that is temporary. -/
def dropTemporary : List α → List α
  | [] => []
  | frame :: outer => if temporary frame then outer else frame :: outer

/-- The stack after the frames that end between two statements are left. -/
def settledStack (previous current : Option Keyword) (stack : List α) : List α :=
  match previous with
  | none => stack
  | some k =>
    if k.traits.opens then stack
    else if k.traits.closesBlock then
      let outer := (stack.dropWhile temporary).tail
      if current = some .orElse then outer else outer.dropWhile temporary
    else if current = some .orElse then dropTemporary temporary stack
    else if State.bodyFollows k current then stack
    else stack.dropWhile temporary

/-- After the end of a block, all temporary frames in the block are left and then the block; those
around it are left too, unless an `else` follows. -/
theorem settledStack_close (current : Option Keyword) (stack : List α) :
    settledStack temporary (some .blockClose) current stack =
      if current = some .orElse then (stack.dropWhile temporary).tail
      else (stack.dropWhile temporary).tail.dropWhile temporary := rfl

theorem drop_takeWhile_length (stack : List α) :
    stack.drop (stack.takeWhile temporary).length = stack.dropWhile temporary := by
  induction stack with
  | nil => rfl
  | cons frame outer ih => cases h : temporary frame <;> simp [h, ih]

theorem isEmpty_dropWhile (stack : List α) :
    (stack.dropWhile temporary).isEmpty = !stack.any (!temporary ·) := by
  induction stack with
  | nil => rfl
  | cons frame outer ih => cases h : temporary frame <;> simp [h, ih]

theorem dropTemporary_eq_drop (stack : List α) :
    stack.drop (min 1 (stack.takeWhile temporary).length) = dropTemporary temporary stack := by
  cases stack with
  | nil => rfl
  | cons frame outer => cases h : temporary frame <;> simp [dropTemporary, h]

/-- Settling looks at nothing but which frames are temporary. -/
theorem settledStack_map (f : β → α) (previous current : Option Keyword) (stack : List β) :
    settledStack temporary previous current (stack.map f) =
      (settledStack (temporary ∘ f) previous current stack).map f := by
  have hdrop : dropTemporary temporary (stack.map f) =
      (dropTemporary (temporary ∘ f) stack).map f := by
    cases stack with
    | nil => rfl
    | cons frame outer =>
      simp only [dropTemporary, List.map_cons, Function.comp_apply]
      split <;> rfl
  cases previous with
  | none => rfl
  | some k =>
    simp only [settledStack, hdrop, List.dropWhile_map, ← List.map_tail]
    repeat' split
    all_goals rfl

end

namespace State

/-! ## Leaving frames -/

/-- `s'` is `s` in which only `frames` are not left; `underflows` are those that were logged. -/
def Leaves (s s' : State) (frames : List Frame) (underflows : List Event) : Prop :=
  ∃ log, s' = { s with scope := { s.scope with frames := frames }, log := s.log ++ log } ∧
    log.filter Event.isUnderflow = underflows

theorem Leaves.refl (s : State) : Leaves s s s.scope.frames [] := ⟨[], by simp, rfl⟩

theorem Leaves.frames_eq {s s' : State} {frames : List Frame} {us : List Event}
    (h : Leaves s s' frames us) : s'.scope.frames = frames := by
  obtain ⟨log, rfl, -⟩ := h
  rfl

theorem Leaves.diagnostics_eq {s s' : State} {frames : List Frame} {us : List Event}
    (h : Leaves s s' frames us) : s'.diagnostics = s.diagnostics := by
  obtain ⟨log, rfl, -⟩ := h
  rfl

theorem Leaves.underflows_eq {s s' : State} {frames : List Frame} {us : List Event}
    (h : Leaves s s' frames us) :
    s'.log.filter Event.isUnderflow = s.log.filter Event.isUnderflow ++ us := by
  obtain ⟨log, rfl, hlog⟩ := h
  simp [hlog]

theorem Leaves.trans {s s' s'' : State} {frames frames' : List Frame} {us us' : List Event}
    (h : Leaves s s' frames us) (h' : Leaves s' s'' frames' us') :
    Leaves s s'' frames' (us ++ us') := by
  obtain ⟨log, rfl, hlog⟩ := h
  obtain ⟨log', rfl, hlog'⟩ := h'
  exact ⟨log ++ log', by simp, by rw [List.filter_append, hlog, hlog']⟩

theorem leaves_pop {s : State} {frame : Frame} {outer : List Frame}
    (h : s.scope.frames = frame :: outer) : Leaves s s.pop outer [] := by
  unfold pop Scope.pop?
  rw [h]
  exact ⟨_, rfl, rfl⟩

theorem leaves_popTimes (count : Nat) {s : State} (h : count ≤ s.scope.frames.length) :
    Leaves s (s.popTimes count) (s.scope.frames.drop count) [] := by
  induction count generalizing s with
  | zero => exact .refl s
  | succ count ih =>
    cases hf : s.scope.frames with
    | nil => simp [hf] at h
    | cons frame outer =>
      have hpop := leaves_pop hf
      have hframes := hpop.frames_eq
      rw [hf, List.length_cons] at h
      have hrest := ih (s := s.pop) (by rw [hframes]; omega)
      rw [hframes] at hrest
      exact hpop.trans hrest

theorem temporaries_le (s : State) : s.temporaries ≤ s.scope.frames.length :=
  (List.takeWhile_sublist Frame.temporary).length_le

theorem leaves_popTemporaries (s : State) :
    Leaves s s.popTemporaries (s.scope.frames.dropWhile (·.temporary)) [] := by
  have h := leaves_popTimes s.temporaries s.temporaries_le
  rwa [temporaries, drop_takeWhile_length] at h

theorem leaves_popTemporary (s : State) :
    Leaves s s.popTemporary (dropTemporary (·.temporary) s.scope.frames) [] := by
  have h := leaves_popTimes (min 1 s.temporaries)
    (Nat.le_trans (Nat.min_le_right ..) s.temporaries_le)
  rwa [temporaries, dropTemporary_eq_drop] at h

/-- Leaving a block; where only the global scope is left, that is an underflow. -/
theorem leaves_popBlock (s : State) :
    Leaves s s.popBlock s.scope.frames.tail
      (if s.scope.frames.isEmpty then [.blockUnderflow] else []) := by
  unfold popBlock Scope.isGlobal
  cases hf : s.scope.frames with
  | nil =>
    refine ⟨[.blockUnderflow], ?_, rfl⟩
    show s.logs [.blockUnderflow] = { s with scope := { s.scope with frames := [] }, log := _ }
    rw [← hf]
    rfl
  | cons frame outer => exact leaves_pop hf

/-- The block that a closing statement ends is the innermost one; there is none if and only if
all frames are temporary. -/
theorem leaves_popTemporaries_popBlock (s : State) :
    Leaves s s.popTemporaries.popBlock (s.scope.frames.dropWhile (·.temporary)).tail
      (if s.scope.inBlock then [] else [.blockUnderflow]) := by
  have h := (leaves_popTemporaries s).trans (leaves_popBlock s.popTemporaries)
  rw [(leaves_popTemporaries s).frames_eq] at h
  rw [isEmpty_dropWhile, ← Scope.inBlock] at h
  cases hb : s.scope.inBlock <;> simpa [hb] using h

/-- **Between two statements** frames are left as `settledStack` says, and an end of a block that
closes none is the only underflow. -/
theorem leaves_settle (previous current : Option Keyword) (s : State) :
    Leaves s (s.settle previous current)
      (settledStack (·.temporary) previous current s.scope.frames)
      (if previous = some .blockClose ∧ s.scope.inBlock = false then [.blockUnderflow]
        else []) := by
  cases previous with
  | none => exact .refl s
  | some k =>
    by_cases hclose : k = .blockClose
    · subst hclose
      have hblock := leaves_popTemporaries_popBlock s
      have hu : (if some Keyword.blockClose = some .blockClose ∧ s.scope.inBlock = false then
          [Event.blockUnderflow] else []) = if s.scope.inBlock then [] else [.blockUnderflow] := by
        cases s.scope.inBlock <;> rfl
      rw [hu]
      by_cases helse : current = some .orElse
      · simpa [settle, settledStack, Keyword.traits, Traits.opens, helse] using hblock
      · have hrest := hblock.trans (leaves_popTemporaries _)
        rw [hblock.frames_eq, List.append_nil] at hrest
        simpa [settle, settledStack, Keyword.traits, Traits.opens, helse, bodyFollows] using hrest
    · have hcl : k.traits.closesBlock = false := by cases k <;> simp_all [Keyword.traits]
      have hne : ¬(some k = some Keyword.blockClose ∧ s.scope.inBlock = false) := by
        simp [hclose]
      rw [if_neg hne]
      simp only [settle, settledStack, hcl, Bool.false_eq_true, ↓reduceIte]
      repeat' split
      · exact .refl s
      · exact leaves_popTemporary s
      · exact .refl s
      · exact leaves_popTemporaries s

/-! ## Closing what is left -/

/-- The blocks among some frames. -/
def blocks (frames : List Frame) : List Frame := frames.filter (!·.temporary)

theorem closeFrame_spec {s : State} {frame : Frame} {outer : List Frame}
    (h : s.scope.frames = frame :: outer) :
    (s.closeFrame frame).scope.frames = outer ∧
      (s.closeFrame frame).diagnostics = s.diagnostics ++ (blocks [frame]).map unclosed ∧
      (s.closeFrame frame).log.filter Event.isUnderflow = s.log.filter Event.isUnderflow := by
  unfold closeFrame
  cases ht : frame.temporary with
  | true =>
    have hpop := leaves_pop h
    refine ⟨hpop.frames_eq, ?_, ?_⟩
    · simpa [blocks, ht] using hpop.diagnostics_eq
    · simpa using hpop.underflows_eq
  | false =>
    let reported : State :=
      { s with invalidated := true, diagnostics := s.diagnostics ++ [unclosed frame] }.logs
        [.unclosedBlock (unclosed frame).x (unclosed frame).y]
    have hpop : Leaves reported reported.pop outer [] := leaves_pop h
    refine ⟨hpop.frames_eq, ?_, ?_⟩
    · refine hpop.diagnostics_eq.trans ?_
      simp [reported, logs, blocks, ht]
    · refine hpop.underflows_eq.trans ?_
      simp [reported, logs, Event.isUnderflow]

/-- At the end every block that is still open is reported, the innermost first, and no scope is
left that is not there. -/
theorem closeRemaining_spec (s : State) :
    s.closeRemaining.diagnostics = s.diagnostics ++ (blocks s.scope.frames).map unclosed ∧
      s.closeRemaining.log.filter Event.isUnderflow = s.log.filter Event.isUnderflow := by
  have hfold : ∀ (frames : List Frame) (s : State), s.scope.frames = frames →
      (frames.foldl closeFrame s).diagnostics =
        s.diagnostics ++ (blocks frames).map unclosed ∧
      (frames.foldl closeFrame s).log.filter Event.isUnderflow =
        s.log.filter Event.isUnderflow := by
    intro frames
    induction frames with
    | nil => exact fun s _ => ⟨by simp [blocks], rfl⟩
    | cons frame outer ih =>
      intro s hs
      obtain ⟨hframes, hdiag, hlog⟩ := closeFrame_spec hs
      obtain ⟨hd, hl⟩ := ih (s.closeFrame frame) hframes
      refine ⟨?_, hl.trans hlog⟩
      rw [List.foldl_cons, hd, hdiag, List.append_assoc, ← List.map_append, blocks, blocks,
        ← List.filter_append, List.singleton_append, blocks]
  exact hfold s.scope.frames s rfl

end State

/-! ## Outlines -/

/-- What a frame is, whatever names are bound in it. -/
structure Outline where
  temporary : Bool
  owner : Option Owner
deriving DecidableEq

def Frame.outline (f : Frame) : Outline := ⟨f.temporary, f.owner⟩

namespace Scope

/-- The frames of a scope without their names, the innermost first. -/
def outlines (s : Scope) : List Outline := s.frames.map Frame.outline

@[simp]
theorem outlines_define (s : Scope) (key : String) (m : Member) :
    (s.define key m).outlines = s.outlines := by
  obtain ⟨_ | ⟨frame, outer⟩, globals⟩ := s <;> rfl

@[simp]
theorem outlines_defineAll (s : Scope) (entries : List (String × Member)) :
    (s.defineAll entries).outlines = s.outlines := by
  induction entries generalizing s with
  | nil => rfl
  | cons entry entries ih => exact (ih _).trans (outlines_define s entry.1 entry.2)

@[simp]
theorem outlines_push (s : Scope) (owner : Option Owner) (temporary : Bool) :
    (s.push owner temporary).outlines = ⟨temporary, owner⟩ :: s.outlines := rfl

end Scope

namespace State

@[simp]
theorem outlines_bound (s : State) (ctx : Context) (g : Generated) :
    (s.bound ctx g).outlines = s.scope.outlines := by
  unfold bound
  dsimp only
  repeat' split
  all_goals simp

/-- The frame that an entry opens, if it opens one. -/
def opened (ctx : Context) (e : Entry) : List Outline :=
  (opening? ctx e.keyword).toList.map (⟨·, some (entryOwner ctx e)⟩)

/-- **A statement** opens its own frame and leaves none. -/
theorem outlines_scopeAfter (s : State) (ctx : Context) (e : Entry) (g : Generated) :
    (s.scopeAfter ctx e g).outlines = opened ctx e ++ s.scope.outlines := by
  unfold scopeAfter opened
  cases opening? ctx e.keyword with
  | none => simp
  | some temporary => cases temporary <;> simp

theorem outlines_settle (previous current : Option Keyword) (s : State) :
    (s.settle previous current).scope.outlines =
      settledStack (·.temporary) previous current s.scope.outlines := by
  rw [Scope.outlines, (leaves_settle previous current s).frames_eq]
  exact (settledStack_map Outline.temporary Frame.outline previous current s.scope.frames).symm

end State

end PixelLang
