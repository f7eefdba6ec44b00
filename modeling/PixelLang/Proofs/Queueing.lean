import Mathlib.Data.List.Chain
import PixelLang.Proofs.Placement

/-!
# From pixels to the queue

No pixel is lost between a program and its queue. The pixels are cut before every keyword, and the
partitions without a keyword are at most one, the first. A queue entry stands for its own partition
and for the bare keywords before it that it counts (`Entry.Unfolds`).

* `forall₂_unfolds_enqueueFrom`: what the entries stand for, one after the other, are the partitions
  with a keyword. The bare keywords that are counted and not queued yet stand before the rest.
* `isChain_enqueueFrom`: the counting goes on as long as it can.
* `Language.queue_lossless`: both for the partitions of a program, and what is reported of the
  pixels before its first keyword.
-/

set_option autoImplicit false

namespace PixelLang

/-! ## Where pixels are cut -/

theorem exists_subdivide_cons (q : Pixel) (rest : List Pixel) :
    ∃ tail parts, subdivide (q :: rest) = ⟨q, tail⟩ :: parts := by
  rw [subdivide]
  split
  · exact ⟨[], [], rfl⟩
  · split
    · exact ⟨[], _, rfl⟩
    · exact ⟨_, _, rfl⟩

/-- A partition holds no keyword after its first pixel. -/
theorem isKeyword_of_mem_tail {pixels : List Pixel} {p : Partition} (h : p ∈ subdivide pixels) :
    ∀ q ∈ p.tail, q.isKeyword = false := by
  induction pixels generalizing p with
  | nil => simp [subdivide] at h
  | cons pixel rest ih =>
    rw [subdivide] at h
    rcases hs : subdivide rest with _ | ⟨part, parts⟩
    · simp only [hs, List.mem_singleton] at h
      simp [h]
    · rw [hs] at h ih
      simp only at h
      split at h
      · rcases List.mem_cons.1 h with rfl | h
        · simp
        · exact ih h
      · rename_i hk
        rcases List.mem_cons.1 h with rfl | h
        · -- the pixel is put before a partition that starts without a keyword
          intro q hq
          rcases List.mem_cons.1 hq with rfl | hq
          · simpa using hk
          · exact ih (.head _) q hq
        · exact ih (.tail _ h)

/-- The partition without a keyword is there where the pixels start without one. -/
theorem exists_keyword?_eq_none_iff (pixels : List Pixel) :
    (∃ p ∈ subdivide pixels, p.keyword? = none) ↔
      ∃ q rest, pixels = q :: rest ∧ q.isKeyword = false := by
  cases pixels with
  | nil => simp [subdivide]
  | cons q rest =>
    have htail := fun p => @keyword_of_mem_tail_subdivide (q :: rest) p
    obtain ⟨tail, parts, hs⟩ := exists_subdivide_cons q rest
    rw [hs] at htail ⊢
    constructor
    · rintro ⟨p, hp, hnone⟩
      rcases List.mem_cons.1 hp with rfl | hp
      · exact ⟨q, rest, rfl, Bool.eq_false_iff.2 (Option.not_isSome_iff_eq_none.2 hnone)⟩
      · exact absurd (htail p hp) (by simp [hnone])
    · rintro ⟨q', rest', heq, hq⟩
      obtain ⟨rfl, rfl⟩ := List.cons.inj heq
      exact ⟨_, .head _, Option.not_isSome_iff_eq_none.1 (Bool.eq_false_iff.1 hq)⟩

/-- A partition without a keyword is the first, and the only one that reports its pixels. -/
theorem orphanReaders_subdivide {pixels : List Pixel} {i : Nat} {p : Partition}
    (hi : (subdivide pixels)[i]? = some p) (hnone : p.keyword? = none) :
    i = 0 ∧ orphanReaders (subdivide pixels) = [p.orphanReader] := by
  have htail := fun p => @keyword_of_mem_tail_subdivide pixels p
  rcases hs : subdivide pixels with _ | ⟨part, parts⟩
  · simp [hs] at hi
  · rw [hs] at hi htail
    cases i with
    | zero =>
      obtain rfl : part = p := Option.some.inj hi
      have hparts : parts.filter (·.keyword?.isNone) = [] := by
        rw [List.filter_eq_nil_iff]
        intro q hq
        simpa using Option.isSome_iff_ne_none.1 (htail q hq)
      exact ⟨rfl, by simp [orphanReaders, hnone, hparts]⟩
    | succ i => exact absurd (htail p (List.mem_of_getElem? hi)) (by simp [hnone])

theorem Pixel.kind_of_keyword? {p : Pixel} {k : Keyword} (h : p.keyword? = some k) :
    p.kind = .keyword k := by
  unfold Pixel.keyword? at h
  split at h
  · rename_i hkind
    rw [hkind, Option.some.inj h]
  · cases h

/-! ## What an entry stands for -/

/-- The partition is a bare keyword that chains. -/
structure Partition.Repeats (p : Partition) (k : Keyword) : Prop where
  keyword : p.keyword? = some k
  isBare : p.isBare
  chains : k.traits.chains

/-- The entry stands for these partitions: its own, and before it the bare keywords it counts. -/
def Entry.Unfolds (e : Entry) (group : List Partition) : Prop :=
  ∃ repeats, group = repeats ++ [e.partition] ∧ e.chain = repeats.length + 1 ∧
    ∀ p ∈ repeats, p.Repeats e.keyword

theorem Keyword.eq_ret_of_chains {k : Keyword} (h : k.traits.chains) : k = .ret := by
  cases k <;> simp_all [Keyword.traits]

/-- An entry that counts more than its own keyword counts one that chains. -/
theorem Entry.Unfolds.eq_ret {e : Entry} {group : List Partition} (h : e.Unfolds group)
    (hchain : 1 < e.chain) : e.keyword = .ret := by
  obtain ⟨_ | ⟨p, repeats⟩, -, hlength, hall⟩ := h
  · simp [hlength] at hchain
  · exact Keyword.eq_ret_of_chains (hall p (.head _)).chains

theorem chainsOn_iff {k : Keyword} {p : Partition} {rest : List Partition} :
    chainsOn k p rest ↔
      k.traits.chains ∧ p.isBare ∧ rest.head?.bind Partition.keyword? = some k := by
  simp [chainsOn, and_assoc]

/-- The queue starts with the keyword that the partitions start with. -/
theorem head?_enqueueFrom {ps : List Partition} (hps : ∀ p ∈ ps, p.keyword?.isSome) (chain : Nat) :
    (enqueueFrom chain ps).head?.map (·.keyword) = ps.head?.bind Partition.keyword? := by
  induction ps generalizing chain with
  | nil => rfl
  | cons p rest ih =>
    obtain ⟨k, hk⟩ := Option.isSome_iff_exists.1 (hps p (.head _))
    simp only [enqueueFrom, hk]
    split
    · rename_i hchains
      rw [ih (fun q hq => hps q (.tail _ hq)), (chainsOn_iff.1 hchains).2.2]
      exact hk.symm
    · exact hk.symm

/-- **The queue stands for the partitions**: the bare keywords that are counted so far, and then the
partitions that are still to be queued. -/
theorem forall₂_unfolds_enqueueFrom {ps : List Partition} (hps : ∀ p ∈ ps, p.keyword?.isSome)
    (repeats : List Partition) (hnil : ps = [] → repeats = [])
    (hrepeats : ∀ k, ps.head?.bind Partition.keyword? = some k → ∀ p ∈ repeats, p.Repeats k) :
    ∃ groups, groups.flatten = repeats ++ ps ∧
      List.Forall₂ Entry.Unfolds (enqueueFrom repeats.length ps) groups := by
  induction ps generalizing repeats with
  | nil => exact ⟨[], by simp [hnil rfl], .nil⟩
  | cons p rest ih =>
    have hrest : ∀ q ∈ rest, q.keyword?.isSome := fun q hq => hps q (.tail _ hq)
    obtain ⟨k, hk⟩ := Option.isSome_iff_exists.1 (hps p (.head _))
    have hsame : ∀ q ∈ repeats, q.Repeats k := hrepeats k hk
    simp only [enqueueFrom, hk]
    split
    · -- one more bare keyword is counted
      rename_i hchains
      obtain ⟨hc, hbare, hnext⟩ := chainsOn_iff.1 hchains
      obtain ⟨groups, hflat, hall⟩ := ih hrest (repeats ++ [p])
        (by rintro rfl; simp at hnext)
        (by
          intro k' hk' q hq
          obtain rfl : k = k' := Option.some.inj (hnext.symm.trans hk')
          rcases List.mem_append.1 hq with hq | hq
          · exact hsame q hq
          · obtain rfl := List.mem_singleton.1 hq
            exact ⟨hk, hbare, hc⟩)
      exact ⟨groups, by simp [hflat], by simpa using hall⟩
    · -- the entry takes all that was counted, and counting starts anew
      obtain ⟨groups, hflat, hall⟩ := ih hrest [] (by simp) (by simp)
      refine ⟨(repeats ++ [p]) :: groups, by simp [hflat], .cons ⟨repeats, rfl, rfl, hsame⟩ hall⟩

/-- **Counting goes on as long as it can**: the entry after a bare keyword that chains has another
keyword. -/
theorem isChain_enqueueFrom {ps : List Partition} (hps : ∀ p ∈ ps, p.keyword?.isSome)
    (chain : Nat) :
    (enqueueFrom chain ps).IsChain
      fun e e' => e.keyword.traits.chains → e.partition.isBare → e'.keyword ≠ e.keyword := by
  induction ps generalizing chain with
  | nil => exact .nil
  | cons p rest ih =>
    have hrest : ∀ q ∈ rest, q.keyword?.isSome := fun q hq => hps q (.tail _ hq)
    obtain ⟨k, hk⟩ := Option.isSome_iff_exists.1 (hps p (.head _))
    simp only [enqueueFrom, hk]
    split
    · exact ih hrest _
    · rename_i hchains
      refine List.isChain_cons.2 ⟨fun e' he' hc hbare heq => hchains ?_, ih hrest 0⟩
      refine chainsOn_iff.2 ⟨hc, hbare, ?_⟩
      rw [← head?_enqueueFrom hrest 0, Option.mem_def.1 he']
      exact congrArg some heq

/-! ## The queue of a program -/

/-- The queue of a program is that of its partitions with a keyword. -/
theorem enqueue_subdivide (pixels : List Pixel) :
    enqueue (subdivide pixels) =
      enqueueFrom 0 ((subdivide pixels).filter (·.keyword?.isSome)) := by
  have htail := fun p => @keyword_of_mem_tail_subdivide pixels p
  rcases hs : subdivide pixels with _ | ⟨p, rest⟩
  · rfl
  · rw [hs] at htail
    have hrest : rest.filter (·.keyword?.isSome) = rest := List.filter_eq_self.2 htail
    cases hk : p.keyword? with
    | none => simp [enqueue, enqueueFrom, hk, hrest]
    | some k => simp [enqueue, hk, hrest]

namespace Language

/-- What the pixels before the first keyword have reported is all that belongs to no statement. -/
theorem filter_keyword_isNone (l : Language) (pixels : List Pixel) :
    (l.evaluatePixels pixels).diagnostics.filter (·.keyword.isNone) =
      (orphanReaders (subdivide pixels)).flatMap (·.diagnostics) := by
  have horphans : ∀ d ∈ (orphanReaders (subdivide pixels)).flatMap (·.diagnostics),
      d.keyword.isNone := by
    intro d hd
    obtain ⟨r, hr, hd⟩ := List.mem_flatMap.1 hd
    obtain ⟨p, hp, rfl⟩ := List.mem_map.1 hr
    rw [(p.holds_orphanReader d hd).1]
    exact (List.mem_filter.1 hp).2
  have hvisits : ∀ d ∈ (l.visits pixels).flatMap (·.reader.diagnostics), ¬ d.keyword.isNone := by
    intro d hd
    obtain ⟨v, hv, hd⟩ := List.mem_flatMap.1 hd
    simp [(holds_of_mem_visits hv d hd).1.1, keyword_of_mem_visits hv]
  have hunclosed : ∀ d ∈ (State.blocks (l.atEnd pixels).scope.frames).map State.unclosed,
      ¬ d.keyword.isNone := by
    intro d hd
    obtain ⟨f, -, rfl⟩ := List.mem_map.1 hd
    simp [State.unclosed]
  rw [diagnostics_evaluatePixels, List.filter_append, List.filter_append,
    List.filter_eq_self.2 horphans, List.filter_eq_nil_iff.2 hvisits,
    List.filter_eq_nil_iff.2 hunclosed, List.append_nil, List.append_nil]

/-- **No pixel is lost between a program and its queue.** The partitions put together are the
pixels. A partition with a keyword starts with it, and none holds one after its first pixel. There
is a partition without a keyword where the pixels do not start with one; it is the first, and one
unexpected token is reported for it. What the entries of the queue stand for are the partitions with
a keyword, in order; only `return` is counted, and a bare `return` is never followed by another. -/
theorem queue_lossless (l : Language) (pixels : List Pixel) :
    (subdivide pixels).flatMap Partition.pixels = pixels ∧
    (∀ p ∈ subdivide pixels,
      (∀ k, p.keyword? = some k → p.head.kind = .keyword k) ∧ ∀ q ∈ p.tail, q.isKeyword = false) ∧
    ((∃ p ∈ subdivide pixels, p.keyword? = none) ↔
      ∃ q rest, pixels = q :: rest ∧ q.isKeyword = false) ∧
    (∀ (i : Nat) (p : Partition), (subdivide pixels)[i]? = some p → p.keyword? = none →
      i = 0 ∧ ∃ d, (l.evaluatePixels pixels).diagnostics.filter (·.keyword.isNone) = [d] ∧
        d.kind = .unexpectedToken ∧ p.Holds d) ∧
    (∃ groups, groups.flatten = (subdivide pixels).filter (·.keyword?.isSome) ∧
      List.Forall₂ Entry.Unfolds (enqueue (subdivide pixels)) groups) ∧
    (∀ e ∈ enqueue (subdivide pixels), 1 < e.chain → e.keyword = .ret) ∧
    ∀ (i : Nat) (e e' : Entry), (enqueue (subdivide pixels))[i]? = some e →
      (enqueue (subdivide pixels))[i + 1]? = some e' →
      e.keyword = .ret → e.partition.isBare → e'.keyword ≠ .ret := by
  have hpartitions : ∀ p ∈ (subdivide pixels).filter (·.keyword?.isSome), p.keyword?.isSome :=
    fun p hp => (List.mem_filter.1 hp).2
  obtain ⟨groups, hflat, hunfolds⟩ := forall₂_unfolds_enqueueFrom hpartitions []
    (fun _ => rfl) (fun _ _ _ hp => absurd hp List.not_mem_nil)
  rw [List.length_nil, ← enqueue_subdivide] at hunfolds
  refine ⟨flatMap_pixels_subdivide pixels,
    fun p hp => ⟨fun k hk => Pixel.kind_of_keyword? hk, isKeyword_of_mem_tail hp⟩,
    exists_keyword?_eq_none_iff pixels, fun i p hi hnone => ?_, ⟨groups, hflat, hunfolds⟩,
    fun e he hchain => ?_, fun i e e' hi hi' hret hbare heq => ?_⟩
  · obtain ⟨hzero, horphans⟩ := orphanReaders_subdivide hi hnone
    refine ⟨hzero, _, ?_, rfl, p.holds_orphanReader _ (.head _)⟩
    rw [filter_keyword_isNone, horphans]
    rfl
  · have hall := (List.forall₂_and_left _ _).1 (hunfolds.imp fun e _ h => ⟨h.eq_ret, h⟩)
    exact hall.1 e he hchain
  · have hmaximal := isChain_enqueueFrom hpartitions 0
    rw [← enqueue_subdivide] at hmaximal
    obtain ⟨hlt, rfl⟩ := List.getElem?_eq_some_iff.1 hi
    obtain ⟨hlt', rfl⟩ := List.getElem?_eq_some_iff.1 hi'
    exact hmaximal.getElem i hlt' (by rw [hret]; rfl) hbare (heq.trans hret.symm)

end Language

end PixelLang
