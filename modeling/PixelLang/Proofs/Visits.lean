import PixelLang.Evaluation
import PixelLang.Proofs.Generation
import PixelLang.Proofs.Settling

/-!
# The visits of a run

A run of the queue visits every entry once, in a state in which the scopes that ended before it are
left. A `Visit` is one such moment; `Language.visits` are those of a program, in order, and
`Language.atEnd` is the state after the last of them, before open scopes are closed.

* `diagnostics_evaluatePixels`: the diagnostics are those of the pixels before the first keyword,
  those of the visits, and one for each block that is open at the end.
* `Visit.reads_reader`, `Visit.diagnostics_reader`: what the reader of a visit reports.
* `Visit.outlines_after`: which frames there are after a visit.
-/

set_option autoImplicit false

namespace PixelLang

open Reader

/-! ## Entries of the queue -/

theorem mem_enqueueFrom {chain : Nat} {ps : List Partition} {e : Entry}
    (h : e ∈ enqueueFrom chain ps) : e.partition ∈ ps ∧ e.partition.keyword? = some e.keyword := by
  induction ps generalizing chain with
  | nil => simp [enqueueFrom] at h
  | cons p rest ih =>
    rw [enqueueFrom] at h
    split at h
    · obtain ⟨hmem, hk⟩ := ih h
      exact ⟨.tail _ hmem, hk⟩
    · rename_i k hk
      split at h
      · obtain ⟨hmem, hk⟩ := ih h
        exact ⟨.tail _ hmem, hk⟩
      · rcases List.mem_cons.1 h with rfl | h
        · exact ⟨.head _, hk⟩
        · obtain ⟨hmem, hk⟩ := ih h
          exact ⟨.tail _ hmem, hk⟩

/-- An entry is one of the partitions, and its keyword is the first pixel of it. -/
theorem mem_enqueue {ps : List Partition} {e : Entry} (h : e ∈ enqueue ps) :
    e.partition ∈ ps ∧ e.partition.keyword? = some e.keyword := mem_enqueueFrom h

namespace Entry

/-- The place of the keyword. -/
def place (e : Entry) : Nat × Nat := (e.partition.head.x, e.partition.head.y)

/-- The diagnostic of a problem at the keyword. -/
def atKeyword (e : Entry) (problem : Problem) : Diagnostic :=
  ⟨problem, e.place.1, e.place.2, 0, some e.keyword, none⟩

theorem locate_first {e : Entry} (h : e.partition.keyword? = some e.keyword) (problem : Problem) :
    e.reader.locate problem .first none = e.atKeyword problem := by
  simp only [reader, Partition.reader, h]
  rfl

end Entry

/-! ## One visit -/

structure Visit where
  previous : Option Keyword
  next : Option Keyword
  entry : Entry
  /-- The state in which the scopes that ended before the entry are left. -/
  state : State

namespace Visit

def context (v : Visit) : Context := v.state.context v.previous v.next v.entry

/-- The reader of the entry, after it was generated. -/
def reader (v : Visit) : Reader :=
  (v.entry.keyword.generate v.context (v.state.entryReader v.entry)).2

/-- The state that the entry leaves. -/
def after (v : Visit) : State := v.state.evalEntry v.previous v.next v.entry

def isStray (v : Visit) : Bool := v.state.isStray v.entry

theorem keyword_of_isStray {v : Visit} (h : v.isStray = true) :
    v.entry.keyword = .blockClose := by
  unfold isStray State.isStray at h
  cases hk : v.entry.keyword <;> simp_all [Keyword.traits]

theorem diagnostics_after (v : Visit) :
    v.after.diagnostics = v.state.diagnostics ++ v.reader.diagnostics := rfl

theorem outlines_after (v : Visit) :
    v.after.scope.outlines = State.opened v.context v.entry ++ v.state.scope.outlines :=
  State.outlines_scopeAfter v.state v.context v.entry _

/-- Evaluating an entry leaves no scope. -/
theorem underflows_after (v : Visit) :
    v.after.log.filter Event.isUnderflow = v.state.log.filter Event.isUnderflow := by
  have hinv (ds : List Diagnostic) :
      (ds.map Event.invalidated).filter Event.isUnderflow = [] := by
    simp [List.filter_eq_nil_iff, Event.isUnderflow]
  have hstray : (v.state.strayLog v.entry).filter Event.isUnderflow = [] := by
    unfold State.strayLog
    split
    · rw [List.filter_cons_of_neg Bool.false_ne_true, hinv]
    · rfl
  have hopen : (v.state.openLog v.context v.entry).filter Event.isUnderflow = [] := by
    unfold State.openLog
    split <;> rfl
  have hgen (r after : Reader) :
      (v.entry.keyword.generateLog v.context r after).filter Event.isUnderflow = [] := by
    rw [Keyword.generateLog, List.filter_cons_of_neg Bool.false_ne_true, hinv]
  show (_ ++ (v.state.strayLog v.entry ++ v.entry.keyword.generateLog v.context _ _ ++
    v.state.openLog v.context v.entry)).filter Event.isUnderflow = _
  rw [List.filter_append, List.filter_append, List.filter_append, hstray, hgen, hopen]
  simp [State.collect]

/-- An end of a block that closes none is reported at its keyword, before all else. -/
theorem reads_entryReader (s : State) (e : Entry) :
    Reads (fun _ => True) e.reader (s.entryReader e) ∧ (s.entryReader e).index = 0 := by
  unfold State.entryReader
  split
  · exact ⟨reads_report trivial (by simp [targetPosition, Entry.reader, Partition.reader,
      ofPixels, Partition.pixels, Reader.length]), rfl⟩
  · exact ⟨.refl _, rfl⟩

theorem length_reader_pos (e : Entry) : 0 < e.reader.length := by
  simp [Entry.reader, Partition.reader, ofPixels, Partition.pixels, Reader.length]

/-- All that a visit reports is reported at pixels of its entry. -/
theorem reads_reader (v : Visit) : Reads (fun _ => True) v.entry.reader v.reader := by
  obtain ⟨hread, hindex⟩ := reads_entryReader v.state v.entry
  refine hread.trans (reads_generate _ _ hindex ?_)
  rw [hread.length_eq]
  exact length_reader_pos v.entry

/-- The diagnostics of a visit: a stray end of a block, what is wrong with the tokens, and what is
wrong with the place of the statement. -/
theorem diagnostics_reader (v : Visit) (h : v.entry.partition.keyword? = some v.entry.keyword) :
    ∃ ds, (∀ d ∈ ds, d.problem.OfTokens) ∧
      v.reader.diagnostics =
        (if v.isStray then [v.entry.atKeyword (.strayClose v.entry.keyword)] else []) ++ ds ++
          (v.entry.keyword.misplaced? v.context).toList.map v.entry.atKeyword := by
  obtain ⟨hread, hindex⟩ := reads_entryReader v.state v.entry
  have hpos : 0 < (v.state.entryReader v.entry).length := by
    rw [hread.length_eq]
    exact length_reader_pos v.entry
  obtain ⟨ds, htokens, hds⟩ := diagnostics_generate v.entry.keyword v.context hindex hpos
  refine ⟨ds, htokens, ?_⟩
  have hlocate (problem : Problem) :
      (v.state.entryReader v.entry).locate problem .first none = v.entry.atKeyword problem := by
    rw [← Entry.locate_first h problem]
    unfold State.entryReader
    split <;> rfl
  have hstart : (v.state.entryReader v.entry).diagnostics =
      if v.isStray then [v.entry.atKeyword (.strayClose v.entry.keyword)] else [] := by
    unfold State.entryReader isStray
    split
    · rw [report, record, Entry.locate_first h]
      rfl
    · rfl
  rw [reader, hds, hstart]
  simp only [hlocate]

/-- A statement other than the end of a block starts without diagnostics. -/
theorem entryReader_eq {s : State} {e : Entry} (h : e.keyword ≠ .blockClose) :
    s.entryReader e = e.reader := by
  have hcl : e.keyword.traits.closesBlock = false := by
    cases hk : e.keyword <;> simp_all [Keyword.traits]
  simp [State.entryReader, State.isStray, hcl]

/-- After the keyword comes the first of the other pixels. -/
theorem peek_next_reader (e : Entry) : e.reader.next.2.peek = e.partition.tail.head? :=
  List.head?_eq_getElem?.symm

/-- A statement that takes no tokens reports nothing exactly if it is its keyword and stands in the
right place. -/
theorem diagnostics_eq_nil_iff {v : Visit} (h : v.entry.keyword.IsLone v.entry.chain) :
    v.reader.diagnostics = [] ↔
      v.entry.partition.isBare ∧ v.entry.keyword.misplaced? v.context = none := by
  have hclose : v.entry.keyword ≠ .blockClose := by
    rcases h with h | ⟨h, -⟩ <;> rw [h] <;> nofun
  have hstart : v.entry.reader.next.2.diagnostics = [] := rfl
  rw [reader, entryReader_eq hclose, Keyword.generate, generator_lone h,
    diagnostics_reportPlace_eq_nil, diagnostics_rejectTrailing_eq_nil, peek_next_reader, hstart,
    List.head?_eq_none_iff, Partition.isBare, List.isEmpty_iff]
  simp

/-- Of problems that are not about tokens, a visit reports a stray end of a block and what is wrong
with the place of the statement. -/
theorem filter_reader (v : Visit) (h : v.entry.partition.keyword? = some v.entry.keyword)
    (P : Problem → Bool) (hP : ∀ p, p.OfTokens → P p = false) :
    v.reader.diagnostics.filter (P ·.problem) =
      (if v.isStray ∧ P (.strayClose v.entry.keyword) then
        [v.entry.atKeyword (.strayClose v.entry.keyword)] else []) ++
        ((v.entry.keyword.misplaced? v.context).filter P).toList.map v.entry.atKeyword := by
  obtain ⟨ds, htokens, hds⟩ := v.diagnostics_reader h
  have htokens' : ds.filter (P ·.problem) = [] := by
    rw [List.filter_eq_nil_iff]
    intro d hd
    rw [hP d.problem (htokens d hd)]
    exact Bool.false_ne_true
  rw [hds, List.filter_append, List.filter_append, htokens', List.append_nil]
  congr 1
  · cases v.isStray with
    | false => simp
    | true => cases hp : P (.strayClose v.entry.keyword) <;> simp [Entry.atKeyword, hp]
  · cases v.entry.keyword.misplaced? v.context with
    | none => rfl
    | some problem => cases hp : P problem <;> simp [Entry.atKeyword, Option.filter, hp]

/-- The same for problems that are not of the place of the statement either. -/
theorem filter_reader_of_place (v : Visit) (h : v.entry.partition.keyword? = some v.entry.keyword)
    (P : Problem → Bool) (hP : ∀ p, p.OfTokens → P p = false)
    (hplace : ∀ p, p = .noBody v.entry.keyword ∨ p = .noLoopBlock ∨ p = .returnOutsideFunction ∨
      p = .breakOutsideLoop → P p = false) :
    v.reader.diagnostics.filter (P ·.problem) =
      if v.isStray ∧ P (.strayClose v.entry.keyword) then
        [v.entry.atKeyword (.strayClose v.entry.keyword)] else [] := by
  have hnone : (v.entry.keyword.misplaced? v.context).filter P = none := by
    rw [Option.filter_eq_none_iff]
    intro problem hproblem
    rw [hplace problem (Keyword.misplaced?_cases hproblem)]
    exact Bool.false_ne_true
  rw [v.filter_reader h P hP, hnone]
  simp

end Visit

/-! ## The run -/

namespace State

/-- The visit of an entry that comes after `previous` and before `rest`. -/
def visit (previous : Option Keyword) (e : Entry) (rest : List Entry) (s : State) : Visit :=
  ⟨previous, rest.head?.map (·.keyword), e, s.settle previous (some e.keyword)⟩

/-- The visits of a run that goes through the entries after `previous`. -/
def visits : (previous : Option Keyword) → List Entry → State → List Visit
  | _, [], _ => []
  | previous, e :: rest, s =>
    s.visit previous e rest :: visits (some e.keyword) rest (s.visit previous e rest).after

/-- The state after the entries, in which the scopes that ended with the last are left. -/
def atEnd : (previous : Option Keyword) → List Entry → State → State
  | previous, [], s => s.settle previous none
  | previous, e :: rest, s =>
    atEnd (some e.keyword) rest (s.step previous (rest.head?.map (·.keyword)) e)

theorem atEnd_cons (previous : Option Keyword) (e : Entry) (rest : List Entry) (s : State) :
    atEnd previous (e :: rest) s =
      atEnd (some e.keyword) rest (s.visit previous e rest).after := rfl

theorem run_eq (previous : Option Keyword) (q : List Entry) (s : State) :
    run previous q s = (atEnd previous q s).closeRemaining := by
  induction q generalizing previous s with
  | nil => rfl
  | cons e rest ih => exact ih _ _

/-- Every entry is visited once, in order. -/
theorem map_entry_visits (previous : Option Keyword) (q : List Entry) (s : State) :
    (visits previous q s).map (·.entry) = q := by
  induction q generalizing previous s with
  | nil => rfl
  | cons e rest ih => rw [visits, List.map_cons, ih, visit]

/-- Only the visits report; leaving scopes does not. -/
theorem diagnostics_atEnd (previous : Option Keyword) (q : List Entry) (s : State) :
    (atEnd previous q s).diagnostics =
      s.diagnostics ++ (visits previous q s).flatMap (·.reader.diagnostics) := by
  induction q generalizing previous s with
  | nil => simpa [visits, atEnd] using (leaves_settle previous none s).diagnostics_eq
  | cons e rest ih =>
    have hstate : (s.visit previous e rest).state.diagnostics = s.diagnostics :=
      (leaves_settle previous (some e.keyword) s).diagnostics_eq
    rw [atEnd_cons, ih, Visit.diagnostics_after, hstate, visits, List.flatMap_cons,
      List.append_assoc]

end State

namespace Language

/-- The visits of a program. -/
def visits (l : Language) (pixels : List Pixel) : List Visit :=
  (l.startState (subdivide pixels)).visits none (enqueue (subdivide pixels))

/-- The state of a program after its last entry, with the scopes that are still open. -/
def atEnd (l : Language) (pixels : List Pixel) : State :=
  (l.startState (subdivide pixels)).atEnd none (enqueue (subdivide pixels))

theorem map_entry_visits (l : Language) (pixels : List Pixel) :
    (l.visits pixels).map (·.entry) = enqueue (subdivide pixels) :=
  State.map_entry_visits ..

theorem keyword_of_mem_visits {l : Language} {pixels : List Pixel} {v : Visit}
    (h : v ∈ l.visits pixels) : v.entry.partition.keyword? = some v.entry.keyword := by
  have hmem : v.entry ∈ (l.visits pixels).map (·.entry) := List.mem_map_of_mem h
  rw [map_entry_visits] at hmem
  exact (mem_enqueue hmem).2

theorem foldl_collect (readers : List Reader) (s : State) :
    (readers.foldl State.collect s).diagnostics =
        s.diagnostics ++ readers.flatMap (·.diagnostics) ∧
      (readers.foldl State.collect s).scope = s.scope ∧
      (readers.foldl State.collect s).log = s.log ∧
      (readers.foldl State.collect s).pending = s.pending := by
  induction readers generalizing s with
  | nil => simp
  | cons r readers ih =>
    obtain ⟨hd, hframe⟩ := ih (s.collect r)
    exact ⟨by rw [List.foldl_cons, hd]; simp [State.collect], hframe⟩

/-- A program starts in the global scope, with the pixels before its first keyword reported and no
function that waits for its block. -/
theorem startState_spec (l : Language) (parts : List Partition) :
    (l.startState parts).diagnostics = (orphanReaders parts).flatMap (·.diagnostics) ∧
      (l.startState parts).scope = l.globalScope ∧ (l.startState parts).pending = none := by
  obtain ⟨hd, hs, -, hp⟩ := foldl_collect (orphanReaders parts) (.start l.globalScope l.globalLog)
  exact ⟨by simpa [startState, State.logs, State.start] using hd, hs, hp⟩

/-- **The diagnostics of a program.** -/
theorem diagnostics_evaluatePixels (l : Language) (pixels : List Pixel) :
    (l.evaluatePixels pixels).diagnostics =
      (orphanReaders (subdivide pixels)).flatMap (·.diagnostics) ++
        (l.visits pixels).flatMap (·.reader.diagnostics) ++
        (State.blocks (l.atEnd pixels).scope.frames).map State.unclosed := by
  show (State.run none _ _).diagnostics = _
  rw [State.run_eq, (State.closeRemaining_spec _).1, State.diagnostics_atEnd,
    (startState_spec l (subdivide pixels)).1]
  rfl

/-- Only the visits and the blocks that are left open report problems other than pixels before the
first keyword. -/
theorem filter_diagnostics (l : Language) (pixels : List Pixel) (P : Problem → Bool)
    (hP : ∀ count, P (.orphans count) = false) :
    (l.evaluatePixels pixels).diagnostics.filter (P ·.problem) =
      ((l.visits pixels).flatMap (·.reader.diagnostics)).filter (P ·.problem) ++
        ((State.blocks (l.atEnd pixels).scope.frames).map State.unclosed).filter (P ·.problem) := by
  have horphans : ((orphanReaders (subdivide pixels)).flatMap (·.diagnostics)).filter
      (P ·.problem) = [] := by
    rw [List.filter_eq_nil_iff]
    intro d hd
    obtain ⟨r, hr, hd⟩ := List.mem_flatMap.1 hd
    obtain ⟨p, -, rfl⟩ := List.mem_map.1 hr
    obtain rfl := List.mem_singleton.1 hd
    rw [show (p.reader.locate _ _ _).problem = .orphans p.pixels.length from rfl, hP]
    exact Bool.false_ne_true
  rw [diagnostics_evaluatePixels, List.filter_append, List.filter_append, horphans,
    List.nil_append]

theorem filter_unclosed (P : Problem → Bool) (hP : ∀ x y, P (.unclosedBlock x y) = false)
    (frames : List Frame) : (frames.map State.unclosed).filter (P ·.problem) = [] := by
  rw [List.filter_eq_nil_iff]
  intro d hd
  obtain ⟨f, -, rfl⟩ := List.mem_map.1 hd
  rw [show (State.unclosed f).problem = .unclosedBlock _ _ from rfl, hP]
  exact Bool.false_ne_true

end Language

end PixelLang
