import PixelLang.Proofs.Grammar

/-!
# Invalid programs

A reader, and the state of an evaluation, keep a list of diagnostics and beside it a flag that says
that there are some. The two are set at different places, and they always agree:
`Reader.Reads.flagged`, `State.isFlagged_atEnd` and `Language.invalidated_eq`.

So a program that is not invalidated has no diagnostic at all, and its keywords are those of a
program of the grammar (`Language.derives_of_valid`).
-/

set_option autoImplicit false

namespace PixelLang

open Reader

/-- The flag is set exactly if there are diagnostics. -/
def Flagged (invalidated : Bool) (diagnostics : List Diagnostic) : Prop :=
  invalidated = !diagnostics.isEmpty

theorem Flagged.append {b b' : Bool} {ds ds' : List Diagnostic} (h : Flagged b ds)
    (h' : Flagged b' ds') : Flagged (b || b') (ds ++ ds') := by
  rw [Flagged] at h h' ⊢
  rw [h, h']
  cases ds <;> rfl

theorem flagged_append_singleton (ds : List Diagnostic) (d : Diagnostic) :
    Flagged true (ds ++ [d]) := by
  cases ds <;> rfl

/-! ## Readers -/

/-- Reading keeps the flag and the diagnostics together, those of slices included. -/
theorem Reader.Reads.flagged {P : Problem → Prop} {r r' : Reader} (h : Reads P r r')
    (hr : Flagged r.invalidated r.diagnostics) : Flagged r'.invalidated r'.diagnostics := by
  induction h with
  | refl _ => exact hr
  | move _ _ ih => exact ih hr
  | record _ _ _ _ _ => exact flagged_append_singleton _ _
  | absorb _ _ ih ihs => exact (ih hr).append (ihs rfl)

theorem Visit.flagged_reader (v : Visit) : Flagged v.reader.invalidated v.reader.diagnostics :=
  v.reads_reader.flagged rfl

/-! ## The state -/

namespace State

/-- The flag of the state is set exactly if it has diagnostics. -/
def IsFlagged (s : State) : Prop := Flagged s.invalidated s.diagnostics

theorem Leaves.isFlagged {s s' : State} {frames : List Frame} {us : List Event}
    (h : Leaves s s' frames us) (hs : s.IsFlagged) : s'.IsFlagged := by
  obtain ⟨log, rfl, -⟩ := h
  exact hs

theorem isFlagged_visit {s : State} (hs : s.IsFlagged) (previous : Option Keyword) (e : Entry)
    (rest : List Entry) : (s.visit previous e rest).after.IsFlagged :=
  ((leaves_settle previous (some e.keyword) s).isFlagged hs).append (Visit.flagged_reader _)

theorem isFlagged_atEnd {s : State} (hs : s.IsFlagged) (previous : Option Keyword)
    (q : List Entry) : (atEnd previous q s).IsFlagged := by
  induction q generalizing previous s with
  | nil => exact (leaves_settle previous none s).isFlagged hs
  | cons e rest ih =>
    rw [atEnd_cons]
    exact ih (isFlagged_visit hs previous e rest) (some e.keyword)

theorem isFlagged_pop {s : State} (hs : s.IsFlagged) : s.pop.IsFlagged := by
  unfold pop
  split <;> exact hs

theorem isFlagged_closeRemaining {s : State} (hs : s.IsFlagged) : s.closeRemaining.IsFlagged := by
  refine List.foldlRecOn s.scope.frames closeFrame hs fun s hs frame _ => ?_
  unfold closeFrame
  split
  · exact isFlagged_pop hs
  · exact isFlagged_pop (flagged_append_singleton s.diagnostics (unclosed frame))

end State

namespace Language

theorem isFlagged_startState (l : Language) (parts : List Partition) :
    (l.startState parts).IsFlagged := by
  have hfold : (List.foldl State.collect (.start l.globalScope l.globalLog)
      (orphanReaders parts)).IsFlagged := by
    refine List.foldlRecOn (orphanReaders parts) State.collect rfl fun s hs r hr => ?_
    obtain ⟨p, -, rfl⟩ := List.mem_map.1 hr
    exact hs.append rfl
  exact hfold

/-- **A program is invalidated exactly if it has a diagnostic.** -/
theorem invalidated_eq (l : Language) (pixels : List Pixel) :
    (l.evaluatePixels pixels).invalidated = !(l.evaluatePixels pixels).diagnostics.isEmpty := by
  show (State.run none _ _).IsFlagged
  rw [State.run_eq]
  exact State.isFlagged_closeRemaining
    (State.isFlagged_atEnd (isFlagged_startState l _) none _)

theorem diagnostics_of_valid {l : Language} {pixels : List Pixel}
    (h : (l.evaluatePixels pixels).invalidated = false) :
    (l.evaluatePixels pixels).diagnostics = [] := by
  rw [invalidated_eq] at h
  simpa using h

/-- The keywords of a program that is not invalidated follow the grammar. -/
theorem derives_of_valid {l : Language} {pixels : List Pixel}
    (h : (l.evaluatePixels pixels).invalidated = false) :
    Derives .program ((enqueue (subdivide pixels)).map Entry.keyword) := by
  have hnil := diagnostics_of_valid h
  have hfollows := filter_isBodyless_diagnostics l pixels
  have hstrays := filter_isStrayClose_diagnostics l pixels
  have hunclosed := filter_isUnclosedBlock_diagnostics l pixels
  rw [hnil, List.filter_nil] at hfollows hstrays hunclosed
  rw [derives_iff_placed]
  exact (placed_iff Entry.keyword (enqueue (subdivide pixels)) []).2
    ⟨hfollows.1 rfl, List.map_eq_nil_iff.1 hstrays.symm, List.map_eq_nil_iff.1 hunclosed.symm⟩

end Language

end PixelLang
