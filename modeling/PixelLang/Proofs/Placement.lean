import Mathlib.Data.List.Forall2
import PixelLang.Proofs.Blocks

/-!
# Diagnostics stand at pixels

`diagnostics_located`: every diagnostic of a program names a pixel of one of its partitions, by its
token number and by its place, and the two agree. The diagnostics come in the order of the
partitions; only those of blocks that are never closed come last.

The readers of a run never place a diagnostic at their anchor, and blocks always have an owner
(`holds_evalSlice`, `isSome_owner_atEnd`): there is no diagnostic at a place that was made up.
-/

set_option autoImplicit false

namespace PixelLang

open Reader

namespace Partition

/-- The diagnostic is one of the partition's statement, and its place is that of the pixel with its
token number. -/
def Holds (p : Partition) (d : Diagnostic) : Prop :=
  d.keyword = p.keyword? ∧
    ∃ pixel, p.pixels[d.tokenIndex]? = some pixel ∧ (d.x, d.y) = (pixel.x, pixel.y)

theorem holds_of_reader {p : Partition} {d : Diagnostic} (h : p.reader.Holds d) : p.Holds d := by
  obtain ⟨hk, i, pixel, hpixel, hi, hxy⟩ := h
  refine ⟨hk, pixel, ?_, hxy⟩
  rw [hi, show p.reader.origin + i = i from Nat.zero_add i]
  exact hpixel

/-- A problem at the first pixel of a partition is at a pixel of it. -/
theorem holds_orphanReader (p : Partition) : ∀ d ∈ p.orphanReader.diagnostics, p.Holds d := by
  intro d hd
  obtain rfl := List.mem_singleton.1 hd
  exact holds_of_reader (holds_locate _ _ (Nat.succ_pos _))

end Partition

/-! ## The order of partitions -/

/-- Only the first partition can have no keyword. -/
theorem keyword_of_mem_tail_subdivide {pixels : List Pixel} {p : Partition}
    (h : p ∈ (subdivide pixels).tail) : p.keyword?.isSome := by
  induction pixels with
  | nil => simp [subdivide] at h
  | cons pixel rest ih =>
    rw [subdivide] at h
    rcases hs : subdivide rest with _ | ⟨part, parts⟩
    · simp [hs] at h
    · rw [hs] at h ih
      dsimp only at h
      split at h
      · rename_i hk
        rcases List.mem_cons.1 h with rfl | h
        · exact hk
        · exact ih h
      · exact ih h

/-- What the entries of the queue report, told by partitions: a partition that is not an entry of
its own reports nothing. -/
theorem forall₂_of_enqueueFrom {R : Partition → List Diagnostic → Prop} (hnil : ∀ p, R p [])
    (ps : List Partition) {chain : Nat} {reports : List (List Diagnostic)}
    (h : List.Forall₂ (fun e ds => R e.partition ds) (enqueueFrom chain ps) reports) :
    ∃ reports', List.Forall₂ R ps reports' ∧ reports'.flatten = reports.flatten := by
  induction ps generalizing chain reports with
  | nil =>
    rw [enqueueFrom] at h
    cases h
    exact ⟨[], .nil, rfl⟩
  | cons p rest ih =>
    rw [enqueueFrom] at h
    split at h
    · obtain ⟨reports', hall, heq⟩ := ih h
      exact ⟨[] :: reports', .cons (hnil p) hall, heq⟩
    · split at h
      · obtain ⟨reports', hall, heq⟩ := ih h
        exact ⟨[] :: reports', .cons (hnil p) hall, heq⟩
      · cases h with
        | @cons _ ds _ reports hp hrest =>
          obtain ⟨reports', hall, heq⟩ := ih hrest
          exact ⟨ds :: reports', .cons hp hall, by simp [heq]⟩

/-- The same with the partition of the pixels before the first keyword, which reports first. -/
theorem forall₂_subdivide {R : Partition → List Diagnostic → Prop} (hnil : ∀ p, R p [])
    (horphan : ∀ p, R p p.orphanReader.diagnostics) (pixels : List Pixel)
    {reports : List (List Diagnostic)}
    (h : List.Forall₂ (fun e ds => R e.partition ds) (enqueue (subdivide pixels)) reports) :
    ∃ reports', List.Forall₂ R (subdivide pixels) reports' ∧
      reports'.flatten =
        (orphanReaders (subdivide pixels)).flatMap (·.diagnostics) ++ reports.flatten := by
  have htail := fun p => @keyword_of_mem_tail_subdivide pixels p
  cases hs : subdivide pixels with
  | nil =>
    rw [hs] at h
    obtain ⟨reports', hall, heq⟩ := forall₂_of_enqueueFrom hnil [] h
    exact ⟨reports', hall, heq⟩
  | cons p rest =>
    rw [hs] at h htail
    have hrest : rest.filter (·.keyword?.isNone) = [] := by
      rw [List.filter_eq_nil_iff]
      intro q hq
      simp [Option.isSome_iff_ne_none.1 (htail q hq)]
    cases hk : p.keyword? with
    | none =>
      -- the pixels before the first keyword are not in the queue
      rw [enqueue, enqueueFrom, hk] at h
      obtain ⟨reports', hall, heq⟩ := forall₂_of_enqueueFrom hnil rest h
      refine ⟨p.orphanReader.diagnostics :: reports', .cons (horphan p) hall, ?_⟩
      simp [orphanReaders, hk, hrest, heq]
    | some k =>
      obtain ⟨reports', hall, heq⟩ := forall₂_of_enqueueFrom hnil (p :: rest) h
      exact ⟨reports', hall, by simp [orphanReaders, hk, hrest, heq]⟩

/-! ## Places that are made up -/

/-- **Slices**: what is reported on a slice stands at a pixel of the slice itself, so that its
anchor is not used. -/
theorem holds_evalSlice (scope : Scope) (depth start stop : Nat) (r : Reader) :
    ∀ d ∈ (evalSlice scope depth (r.slice start stop)).2.diagnostics,
      (r.slice start stop).Holds d := by
  have hread := reads_evalSlice scope depth (r.slice start stop)
  obtain ⟨ds, hds, hall⟩ := hread.located
  intro d hd
  rw [hds] at hd
  exact (hall d (by simpa [slice] using hd)).2

namespace Language

/-- A block that is open at the end has an owner, at whose keyword it is reported. -/
theorem isSome_owner_atEnd (l : Language) (pixels : List Pixel) :
    ∀ f ∈ State.blocks (l.atEnd pixels).scope.frames, f.owner.isSome := by
  intro f hf
  obtain ⟨hmem, ht⟩ := List.mem_filter.1 hf
  have houtline : f.outline ∈ blockFrames (l.atEnd pixels).scope.outlines :=
    List.mem_filter.2 ⟨List.mem_map_of_mem hmem, ht⟩
  rw [blockFrames_atEnd] at houtline
  obtain ⟨v, -, hv⟩ := List.mem_map.1 houtline
  have howner : f.owner = v.block.owner := (congrArg Outline.owner hv).symm
  rw [howner]
  rfl

/-- What a visit reports is at pixels of its partition, and no block that is never closed. -/
theorem holds_of_mem_visits {l : Language} {pixels : List Pixel} {v : Visit}
    (h : v ∈ l.visits pixels) :
    ∀ d ∈ v.reader.diagnostics, v.entry.partition.Holds d ∧ d.problem.isUnclosedBlock = false := by
  obtain ⟨ds, hds, hall⟩ := v.reads_reader.located
  intro d hd
  have hd' : d ∈ ds := by
    rw [hds] at hd
    simpa [Entry.reader, Partition.reader, ofPixels] using hd
  refine ⟨Partition.holds_of_reader (hall d hd').2, ?_⟩
  have hfilter := v.filter_isUnclosedBlock (keyword_of_mem_visits h)
  rw [List.filter_eq_nil_iff] at hfilter
  simpa using hfilter d hd

/-- What is reported of the blocks that are never closed is at the keywords that open them. -/
theorem holds_unclosed {l : Language} {pixels : List Pixel} {d : Diagnostic}
    (h : d ∈ (State.blocks (l.atEnd pixels).scope.frames).map State.unclosed) :
    d.problem.isUnclosedBlock ∧ ∃ p ∈ subdivide pixels, p.Holds d := by
  rw [map_unclosed_of_blockFrames (blockFrames_atEnd l pixels) fun v hv => (mem_unmatched _ hv).2,
    map_entry_unmatched] at h
  obtain ⟨e, he, rfl⟩ := List.mem_map.1 h
  obtain ⟨hpartition, hkeyword⟩ := mem_enqueue (mem_unmatched _ he).1
  refine ⟨rfl, e.partition, hpartition, Partition.holds_of_reader ?_⟩
  rw [Entry.unclosed, ← Entry.locate_first hkeyword]
  exact holds_locate _ _ (Nat.succ_pos _)

/-- **Every diagnostic stands at a pixel, and its two addresses agree.** The diagnostics of a
program are those of its partitions, in their order, and after them those of the blocks that are
never closed. Each is one of the statement of its partition, and its place is that of the pixel with
its token number. What is reported on a slice of a statement is at a pixel of that slice, and each
block that is reported has an owner: no diagnostic stands at an anchor or a default place. -/
theorem diagnostics_located (l : Language) (pixels : List Pixel) :
    (∃ reports unclosed,
      (l.evaluatePixels pixels).diagnostics = reports.flatten ++ unclosed ∧
      List.Forall₂
        (fun p ds => ∀ d ∈ ds, p.Holds d ∧ d.problem.isUnclosedBlock = false)
        (subdivide pixels) reports ∧
      ∀ d ∈ unclosed, d.problem.isUnclosedBlock ∧ ∃ p ∈ subdivide pixels, p.Holds d) ∧
    (∀ (scope : Scope) (depth start stop : Nat) (r : Reader),
      ∀ d ∈ (evalSlice scope depth (r.slice start stop)).2.diagnostics,
        (r.slice start stop).Holds d) ∧
    ∀ f ∈ State.blocks (l.atEnd pixels).scope.frames, f.owner.isSome := by
  refine ⟨?_, holds_evalSlice, isSome_owner_atEnd l pixels⟩
  have hvisits : List.Forall₂
      (fun e ds => ∀ d ∈ ds, e.partition.Holds d ∧ d.problem.isUnclosedBlock = false)
      (enqueue (subdivide pixels)) ((l.visits pixels).map (·.reader.diagnostics)) := by
    rw [← map_entry_visits l pixels, List.forall₂_map_left_iff, List.forall₂_map_right_iff,
      List.forall₂_same]
    exact fun v hv => holds_of_mem_visits hv
  obtain ⟨reports, hall, hflat⟩ := forall₂_subdivide
    (R := fun p ds => ∀ d ∈ ds, p.Holds d ∧ d.problem.isUnclosedBlock = false)
    (fun _ _ hd => absurd hd List.not_mem_nil)
    (fun p d hd => ⟨p.holds_orphanReader d hd, by rw [List.mem_singleton.1 hd]; rfl⟩)
    pixels hvisits
  refine ⟨reports, (State.blocks (l.atEnd pixels).scope.frames).map State.unclosed, ?_, hall,
    fun d hd => holds_unclosed hd⟩
  rw [diagnostics_evaluatePixels, hflat, ← List.flatMap_def]

end Language

end PixelLang
