import PixelLang.Proofs.Visits

/-!
# Matching of blocks

The keywords that open and close blocks are matched with the usual stack (`unmatched`): the end of a
block closes the innermost open one, or is stray. The scopes follow this stack in every run,
although a block is left only when the next statement is settled and temporary scopes lie between:

* `blockFrames_visits`: at each visit the frames of blocks are those of the visits that opened a
  block not closed so far; `blockFrames_atEnd`: so are those that are open at the end.
* `isStray_iff`: a visit finds a stray end exactly where the stack is empty.
* `underflows_evaluatePixels`: the only underflows are one for each stray end.
* `blocks_matched`: what a program reports of blocks.
-/

set_option autoImplicit false

namespace PixelLang

/-! ## The stack of open blocks -/

section
variable {α β : Type} (keyword : α → Keyword)

/-- The open blocks after a statement, the innermost first. -/
def bracketStep (opened : List α) (a : α) : List α :=
  match keyword a with
  | .blockOpen => a :: opened
  | .blockClose => opened.tail
  | _ => opened

/-- The statements that open a block which none of the others closes, the innermost first. -/
def unmatched (items : List α) : List α := items.foldl (bracketStep keyword) []

/-- The ends of blocks that close none, where the blocks of `opened` are open before. -/
def straysFrom : (opened : List α) → List α → List α
  | _, [] => []
  | opened, a :: rest =>
    if keyword a = .blockClose ∧ opened.isEmpty then
      a :: straysFrom (bracketStep keyword opened a) rest
    else straysFrom (bracketStep keyword opened a) rest

/-- The ends of blocks that close none. -/
def strays (items : List α) : List α := straysFrom keyword [] items

theorem bracketStep_map (f : β → α) (opened : List β) (b : β) :
    bracketStep keyword (opened.map f) (f b) = (bracketStep (keyword ∘ f) opened b).map f := by
  simp only [bracketStep, Function.comp_apply]
  cases keyword (f b) <;> simp

theorem foldl_bracketStep_map (f : β → α) (items opened : List β) :
    (items.map f).foldl (bracketStep keyword) (opened.map f) =
      (items.foldl (bracketStep (keyword ∘ f)) opened).map f := by
  induction items generalizing opened with
  | nil => rfl
  | cons b rest ih => rw [List.map_cons, List.foldl_cons, bracketStep_map, ih, List.foldl_cons]

theorem unmatched_map (f : β → α) (items : List β) :
    unmatched keyword (items.map f) = (unmatched (keyword ∘ f) items).map f :=
  foldl_bracketStep_map keyword f items []

theorem straysFrom_map (f : β → α) (items opened : List β) :
    straysFrom keyword (opened.map f) (items.map f) =
      (straysFrom (keyword ∘ f) opened items).map f := by
  induction items generalizing opened with
  | nil => rfl
  | cons b rest ih =>
    simp only [List.map_cons, straysFrom, bracketStep_map, ih, List.isEmpty_map,
      Function.comp_apply]
    split <;> rfl

theorem mem_bracketStep {opened : List α} {a b : α} (h : b ∈ bracketStep keyword opened a) :
    b ∈ opened ∨ b = a ∧ keyword a = .blockOpen := by
  unfold bracketStep at h
  split at h
  · rename_i hk
    rcases List.mem_cons.1 h with rfl | h
    · exact .inr ⟨rfl, hk⟩
    · exact .inl h
  · exact .inl (List.mem_of_mem_tail h)
  · exact .inl h

/-- What is unmatched opens a block. -/
theorem mem_unmatched {items : List α} {b : α} (h : b ∈ unmatched keyword items) :
    b ∈ items ∧ keyword b = .blockOpen := by
  have hfold : ∀ (items opened : List α), b ∈ items.foldl (bracketStep keyword) opened →
      b ∈ opened ∨ b ∈ items ∧ keyword b = .blockOpen := by
    intro items
    induction items with
    | nil => exact fun _ h => .inl h
    | cons a rest ih =>
      intro opened h
      rcases ih _ h with h | ⟨h, hk⟩
      · rcases mem_bracketStep keyword h with h | ⟨rfl, hk⟩
        · exact .inl h
        · exact .inr ⟨.head _, hk⟩
      · exact .inr ⟨.tail _ h, hk⟩
  exact (hfold items [] h).resolve_left (List.not_mem_nil)

end

/-! ## The blocks of a stack of frames -/

/-- The frames that are blocks. -/
def blockFrames (frames : List Outline) : List Outline := frames.filter (!·.temporary)

/-- The blocks that are open after a statement. If it was the end of a block, that block is still
among the frames. -/
def blocksAfter (previous : Option Keyword) (frames : List Outline) : List Outline :=
  if previous = some .blockClose then (blockFrames frames).tail else blockFrames frames

theorem blockFrames_dropWhile (frames : List Outline) :
    blockFrames (frames.dropWhile (·.temporary)) = blockFrames frames := by
  induction frames with
  | nil => rfl
  | cons frame outer ih => cases h : frame.temporary <;> simp_all [blockFrames]

theorem blockFrames_tail_dropWhile (frames : List Outline) :
    blockFrames (frames.dropWhile (·.temporary)).tail = (blockFrames frames).tail := by
  induction frames with
  | nil => rfl
  | cons frame outer ih => cases h : frame.temporary <;> simp_all [blockFrames]

theorem blockFrames_dropTemporary (frames : List Outline) :
    blockFrames (dropTemporary (·.temporary) frames) = blockFrames frames := by
  cases frames with
  | nil => rfl
  | cons frame outer => cases h : frame.temporary <;> simp [blockFrames, dropTemporary, h]

/-- Settling leaves a block after its end, and no other block. -/
theorem blockFrames_settledStack (previous current : Option Keyword) (frames : List Outline) :
    blockFrames (settledStack (·.temporary) previous current frames) =
      blocksAfter previous frames := by
  cases previous with
  | none => rfl
  | some k =>
    by_cases hk : k = .blockClose
    · subst hk
      rw [settledStack_close, blocksAfter, if_pos rfl]
      split
      · exact blockFrames_tail_dropWhile frames
      · rw [blockFrames_dropWhile, blockFrames_tail_dropWhile]
    · have hcl : k.traits.closesBlock = false := by cases k <;> simp_all [Keyword.traits]
      simp only [settledStack, hcl, blocksAfter, Option.some.injEq, hk, Bool.false_eq_true,
        ↓reduceIte]
      repeat' split
      · rfl
      · exact blockFrames_dropTemporary frames
      · rfl
      · exact blockFrames_dropWhile frames

theorem inBlock_eq (s : Scope) : s.inBlock = !(blockFrames s.outlines).isEmpty := by
  simp only [Scope.inBlock, Scope.outlines, blockFrames]
  induction s.frames with
  | nil => rfl
  | cons frame outer ih =>
    cases h : frame.temporary <;> simp_all [Frame.outline]

/-! ## Visits -/

namespace Visit

/-- The frame of the block that an entry opens. -/
def block (v : Visit) : Outline := ⟨false, some (State.entryOwner v.context v.entry)⟩

theorem blockFrames_opened (v : Visit) :
    blockFrames (State.opened v.context v.entry) =
      if v.entry.keyword = .blockOpen then [v.block] else [] := by
  unfold State.opened State.opening?
  cases v.entry.keyword
  case blockOpen => rfl
  all_goals
    simp only [Keyword.traits, Bool.false_eq_true, Bool.false_and, Bool.true_and, ↓reduceIte,
      reduceCtorEq]
    try split
    all_goals rfl

theorem blockFrames_after (v : Visit) :
    blockFrames v.after.scope.outlines =
      (if v.entry.keyword = .blockOpen then [v.block] else []) ++
        blockFrames v.state.scope.outlines := by
  rw [outlines_after, ← blockFrames_opened]
  exact List.filter_append ..

/-- A visit opens and closes blocks as the stack says. -/
theorem blocksAfter_after {v : Visit} {opened : List Visit}
    (h : blockFrames v.state.scope.outlines = opened.map block) :
    blocksAfter (some v.entry.keyword) v.after.scope.outlines =
      (bracketStep (·.entry.keyword) opened v).map block := by
  simp only [blocksAfter, bracketStep, blockFrames_after, h]
  cases hk : v.entry.keyword <;> simp

theorem isStray_iff {v : Visit} {opened : List Visit}
    (h : blockFrames v.state.scope.outlines = opened.map block) :
    v.isStray = true ↔ v.entry.keyword = .blockClose ∧ opened.isEmpty := by
  simp only [isStray, State.isStray, inBlock_eq, h]
  cases v.entry.keyword <;> simp [Keyword.traits]

end Visit

/-! ## Runs -/

namespace State

section
variable {previous : Option Keyword} {s : State} {opened : List Visit}

theorem blockFrames_visit (e : Entry) (rest : List Entry)
    (h : blocksAfter previous s.scope.outlines = opened.map Visit.block) :
    blockFrames (s.visit previous e rest).state.scope.outlines = opened.map Visit.block := by
  show blockFrames (s.settle previous (some e.keyword)).scope.outlines = _
  rw [outlines_settle, blockFrames_settledStack, h]

theorem blocksAfter_visit (e : Entry) (rest : List Entry)
    (h : blocksAfter previous s.scope.outlines = opened.map Visit.block) :
    blocksAfter (some e.keyword) (s.visit previous e rest).after.scope.outlines =
      (bracketStep (·.entry.keyword) opened (s.visit previous e rest)).map Visit.block :=
  Visit.blocksAfter_after (blockFrames_visit e rest h)

/-- **The run follows the stack**: at each visit the blocks are those of the visits that are still
unmatched, and so they are at the end. -/
theorem blockFrames_run (q : List Entry)
    (h : blocksAfter previous s.scope.outlines = opened.map Visit.block) :
    (∀ i v, (visits previous q s)[i]? = some v →
      blockFrames v.state.scope.outlines =
        (((visits previous q s).take i).foldl (bracketStep (·.entry.keyword)) opened).map
          Visit.block) ∧
      blockFrames (atEnd previous q s).scope.outlines =
        ((visits previous q s).foldl (bracketStep (·.entry.keyword)) opened).map Visit.block := by
  induction q generalizing previous s opened with
  | nil =>
    refine ⟨by simp [visits], ?_⟩
    rw [atEnd, outlines_settle, blockFrames_settledStack, h]
    rfl
  | cons e rest ih =>
    obtain ⟨hvisits, hend⟩ := ih (blocksAfter_visit e rest h)
    refine ⟨fun i w hw => ?_, hend⟩
    cases i with
    | zero =>
      obtain rfl : s.visit previous e rest = w := by simpa [visits] using hw
      exact blockFrames_visit e rest h
    | succ i => exact hvisits i w (by simpa [visits] using hw)

/-- The visits that find a stray end of a block are those of the stack. -/
theorem filter_isStray_visits (q : List Entry)
    (h : blocksAfter previous s.scope.outlines = opened.map Visit.block) :
    (visits previous q s).filter (·.isStray) =
      straysFrom (·.entry.keyword) opened (visits previous q s) := by
  induction q generalizing previous s opened with
  | nil => rfl
  | cons e rest ih =>
    have hiff := Visit.isStray_iff (blockFrames_visit e rest h)
    rw [visits, List.filter_cons, straysFrom, ih (blocksAfter_visit e rest h)]
    simp only [hiff]

/-- **Underflows of a run**: one for each stray end of a block, logged when the next statement is
settled. -/
theorem underflows_run (q : List Entry)
    (h : blocksAfter previous s.scope.outlines = opened.map Visit.block) :
    (atEnd previous q s).log.filter Event.isUnderflow =
      s.log.filter Event.isUnderflow ++
        (if previous = some .blockClose ∧ s.scope.inBlock = false then [.blockUnderflow] else []) ++
        (straysFrom (·.entry.keyword) opened (visits previous q s)).map
          fun _ => .blockUnderflow := by
  induction q generalizing previous s opened with
  | nil =>
    rw [atEnd, (leaves_settle previous none s).underflows_eq]
    simp [visits, straysFrom]
  | cons e rest ih =>
    have hsettle : (s.visit previous e rest).state.log.filter Event.isUnderflow = _ :=
      (leaves_settle previous (some e.keyword) s).underflows_eq
    have hstray : (if some e.keyword = some .blockClose ∧
          (s.visit previous e rest).after.scope.inBlock = false then
        [Event.blockUnderflow] else []) =
        if e.keyword = .blockClose ∧ opened.isEmpty then [.blockUnderflow] else [] := by
      by_cases hk : e.keyword = .blockClose
      · have hblocks : blockFrames (s.visit previous e rest).after.scope.outlines =
            opened.map Visit.block := by
          rw [Visit.blockFrames_after, blockFrames_visit e rest h]
          simp [visit, hk]
        simp [inBlock_eq, hblocks, hk]
      · simp [hk]
    have hkeyword : (s.visit previous e rest).entry.keyword = e.keyword := rfl
    rw [atEnd_cons, ih (blocksAfter_visit e rest h), Visit.underflows_after, hsettle, hstray,
      visits, straysFrom, hkeyword]
    by_cases hs : e.keyword = .blockClose ∧ opened.isEmpty
    · rw [if_pos hs, if_pos hs]
      simp
    · rw [if_neg hs, if_neg hs]
      simp

end

end State

/-! ## Programs -/

/-- The place of the statement that a frame belongs to. -/
def Frame.place? (f : Frame) : Option (Nat × Nat) := f.owner.map fun owner => (owner.x, owner.y)

/-- The places of the blocks of a scope, the innermost first. -/
def Scope.blockPlaces (s : Scope) : List (Option (Nat × Nat)) :=
  (s.frames.filter (!·.temporary)).map Frame.place?

theorem blockPlaces_eq (s : Scope) :
    s.blockPlaces =
      (blockFrames s.outlines).map fun f => f.owner.map fun owner => (owner.x, owner.y) := by
  rw [blockFrames, Scope.outlines, List.filter_map, List.map_map]
  rfl

/-- The frames of open blocks stand at the keywords that opened them. -/
theorem blockPlaces_of_blockFrames {s : Scope} {opened : List Visit}
    (h : blockFrames s.outlines = opened.map Visit.block) :
    s.blockPlaces = (opened.map (·.entry)).map (some ·.place) := by
  rw [blockPlaces_eq, h, List.map_map, List.map_map]
  rfl

/-- The diagnostic of a block that is never closed, at the keyword that opens it. -/
def Entry.unclosed (e : Entry) : Diagnostic := e.atKeyword (.unclosedBlock e.place.1 e.place.2)

/-- The diagnostic of the end of a block that closes none, at its keyword. -/
def Entry.stray (e : Entry) : Diagnostic := e.atKeyword (.strayClose .blockClose)

theorem map_unclosed_of_blockFrames {s : Scope} {opened : List Visit}
    (h : blockFrames s.outlines = opened.map Visit.block)
    (hopen : ∀ v ∈ opened, v.entry.keyword = .blockOpen) :
    (State.blocks s.frames).map State.unclosed = (opened.map (·.entry)).map Entry.unclosed := by
  -- what is reported of a frame does not depend on the names bound in it
  let report (f : Outline) : Diagnostic := State.unclosed ⟨f.owner, f.temporary, .empty⟩
  have hreport : (State.blocks s.frames).map State.unclosed =
      (blockFrames s.outlines).map report := by
    rw [blockFrames, Scope.outlines, List.filter_map, List.map_map]
    rfl
  rw [hreport, h, List.map_map, List.map_map]
  refine List.map_congr_left fun v hv => ?_
  simp only [Function.comp_apply, Entry.unclosed, Entry.atKeyword, hopen v hv]
  rfl

/-- The problem is an end of a block that closes none. -/
def Problem.isStrayClose : Problem → Bool
  | strayClose _ => true
  | _ => false

/-- The problem is a block that is never closed. -/
def Problem.isUnclosedBlock : Problem → Bool
  | unclosedBlock .. => true
  | _ => false

/-- A statement reports the end of a block if it is one that closes none. -/
theorem Visit.filter_isStrayClose (v : Visit)
    (h : v.entry.partition.keyword? = some v.entry.keyword) :
    v.reader.diagnostics.filter (·.problem.isStrayClose) =
      if v.isStray then [v.entry.stray] else [] := by
  rw [v.filter_reader_of_place h Problem.isStrayClose
    (fun p hp => by cases p <;> first | rfl | exact hp.elim)
    (by rintro p (rfl | rfl | rfl | rfl) <;> rfl)]
  cases hs : v.isStray with
  | false => simp
  | true => simp [keyword_of_isStray hs, Problem.isStrayClose, Entry.stray]

/-- No statement reports a block that is not closed. -/
theorem Visit.filter_isUnclosedBlock (v : Visit)
    (h : v.entry.partition.keyword? = some v.entry.keyword) :
    v.reader.diagnostics.filter (·.problem.isUnclosedBlock) = [] := by
  rw [v.filter_reader_of_place h Problem.isUnclosedBlock
    (fun p hp => by cases p <;> first | rfl | exact hp.elim)
    (by rintro p (rfl | rfl | rfl | rfl) <;> rfl)]
  simp [Problem.isUnclosedBlock]

namespace Language

theorem outlines_startState (l : Language) (parts : List Partition) :
    (l.startState parts).scope.outlines = [] := by
  rw [(startState_spec l parts).2.1]
  rfl

theorem underflows_startState (l : Language) (parts : List Partition) :
    (l.startState parts).log.filter Event.isUnderflow = [] := by
  obtain ⟨-, -, hl, -⟩ := foldl_collect (orphanReaders parts) (.start l.globalScope l.globalLog)
  have hglobal : l.globalLog.filter Event.isUnderflow = [] := by
    rw [List.filter_eq_nil_iff]
    intro event he
    obtain ⟨library, -, he⟩ := List.mem_flatMap.1 he
    rcases List.mem_append.1 he with he | he
    · obtain ⟨f, -, rfl⟩ := List.mem_map.1 he
      exact Bool.false_ne_true
    · rw [List.mem_singleton.1 he]
      exact Bool.false_ne_true
  have horphans (ds : List Diagnostic) (count : Nat) :
      (ds.map Event.invalidated ++ [Event.evaluating count]).filter Event.isUnderflow = [] := by
    simp [List.filter_eq_nil_iff, Event.isUnderflow]
  rw [startState, State.logs, List.filter_append, hl, horphans, List.append_nil]
  exact hglobal

/-- The visits that opened the blocks still open before the visit with this number. -/
def openVisits (l : Language) (pixels : List Pixel) (i : Nat) : List Visit :=
  unmatched (·.entry.keyword) ((l.visits pixels).take i)

theorem blocksAfter_startState (l : Language) (parts : List Partition) :
    blocksAfter none (l.startState parts).scope.outlines = ([] : List Visit).map Visit.block := by
  rw [outlines_startState]
  rfl

theorem blockFrames_visits {l : Language} {pixels : List Pixel} {i : Nat} {v : Visit}
    (h : (l.visits pixels)[i]? = some v) :
    blockFrames v.state.scope.outlines = (l.openVisits pixels i).map Visit.block :=
  (State.blockFrames_run _ (blocksAfter_startState l _)).1 i v h

theorem blockFrames_atEnd (l : Language) (pixels : List Pixel) :
    blockFrames (l.atEnd pixels).scope.outlines =
      (unmatched (·.entry.keyword) (l.visits pixels)).map Visit.block :=
  (State.blockFrames_run _ (blocksAfter_startState l _)).2

/-- The open blocks of the visits are those of the queue. -/
theorem map_entry_openVisits (l : Language) (pixels : List Pixel) (i : Nat) :
    (l.openVisits pixels i).map (·.entry) =
      unmatched Entry.keyword ((enqueue (subdivide pixels)).take i) := by
  rw [← map_entry_visits l pixels, ← List.map_take, unmatched_map]
  rfl

theorem map_entry_unmatched (l : Language) (pixels : List Pixel) :
    (unmatched (·.entry.keyword) (l.visits pixels)).map (·.entry) =
      unmatched Entry.keyword (enqueue (subdivide pixels)) := by
  rw [← map_entry_visits l pixels, unmatched_map]
  rfl

theorem map_entry_strays (l : Language) (pixels : List Pixel) :
    ((l.visits pixels).filter (·.isStray)).map (·.entry) =
      strays Entry.keyword (enqueue (subdivide pixels)) := by
  rw [visits, State.filter_isStray_visits _ (blocksAfter_startState l _), ← visits,
    ← map_entry_visits l pixels]
  exact (straysFrom_map Entry.keyword (·.entry) (l.visits pixels) []).symm

/-- The stray ends of blocks that some visits report. -/
theorem filter_isStrayClose_flatMap (vs : List Visit)
    (h : ∀ v ∈ vs, v.entry.partition.keyword? = some v.entry.keyword) :
    (vs.flatMap (·.reader.diagnostics)).filter (·.problem.isStrayClose) =
      ((vs.filter (·.isStray)).map (·.entry)).map Entry.stray := by
  induction vs with
  | nil => rfl
  | cons v vs ih =>
    have hv := v.filter_isStrayClose (h v (.head _))
    rw [List.flatMap_cons, List.filter_append, hv, ih fun w hw => h w (.tail _ hw)]
    cases hs : v.isStray <;> simp [hs]

theorem filter_isStrayClose_diagnostics (l : Language) (pixels : List Pixel) :
    (l.evaluatePixels pixels).diagnostics.filter (·.problem.isStrayClose) =
      (strays Entry.keyword (enqueue (subdivide pixels))).map Entry.stray := by
  rw [filter_diagnostics l pixels Problem.isStrayClose fun _ => rfl,
    filter_unclosed Problem.isStrayClose (fun _ _ => rfl),
    filter_isStrayClose_flatMap (l.visits pixels) fun _ => keyword_of_mem_visits, map_entry_strays,
    List.append_nil]

theorem filter_isUnclosedBlock_diagnostics (l : Language) (pixels : List Pixel) :
    (l.evaluatePixels pixels).diagnostics.filter (·.problem.isUnclosedBlock) =
      (unmatched Entry.keyword (enqueue (subdivide pixels))).map Entry.unclosed := by
  have hvisits : ((l.visits pixels).flatMap (·.reader.diagnostics)).filter
      (·.problem.isUnclosedBlock) = [] := by
    rw [List.filter_flatMap, List.flatMap_eq_nil_iff]
    exact fun v hv => v.filter_isUnclosedBlock (keyword_of_mem_visits hv)
  have hunclosed := map_unclosed_of_blockFrames (blockFrames_atEnd l pixels)
    fun v hv => (mem_unmatched _ hv).2
  rw [filter_diagnostics l pixels Problem.isUnclosedBlock fun _ => rfl, hvisits, hunclosed,
    map_entry_unmatched]
  simp only [List.nil_append, List.filter_eq_self, List.mem_map]
  rintro d ⟨e, -, rfl⟩
  rfl

/-- A scope that does not exist is never left, but for the blocks of stray ends. -/
theorem underflows_evaluatePixels (l : Language) (pixels : List Pixel) :
    (l.evaluatePixels pixels).log.filter Event.isUnderflow =
      (strays Entry.keyword (enqueue (subdivide pixels))).map fun _ => .blockUnderflow := by
  have hrun := State.underflows_run (enqueue (subdivide pixels))
    (blocksAfter_startState l (subdivide pixels))
  show (State.run none _ _).log.filter _ = _
  rw [State.run_eq, (State.closeRemaining_spec _).2, hrun, underflows_startState,
    ← map_entry_strays, List.map_map, visits,
    State.filter_isStray_visits _ (blocksAfter_startState l _)]
  simp [Function.comp_def]

/-- **Blocks are matched exactly.** Every entry of the queue is visited, and at each visit the
blocks of the scope are the blocks of the queue that are open there. An end of a block that closes
none is reported at its keyword, once, and no other entry reports one. Of the blocks that are never
closed each is reported at the keyword that opened it, the innermost first. Both are problems of
structure. No scope is left that is not there: the only underflow is that of the block of a stray
end. -/
theorem blocks_matched (l : Language) (pixels : List Pixel) :
    let q := enqueue (subdivide pixels)
    let e := l.evaluatePixels pixels
    (l.visits pixels).map (·.entry) = q ∧
    (∀ i v, (l.visits pixels)[i]? = some v →
      v.state.scope.blockPlaces = (unmatched Entry.keyword (q.take i)).map (some ·.place) ∧
      v.reader.diagnostics.filter (·.problem.isStrayClose) =
        if v.entry.keyword = .blockClose ∧ (unmatched Entry.keyword (q.take i)).isEmpty then
          [v.entry.stray] else []) ∧
    e.diagnostics.filter (·.problem.isStrayClose) = (strays Entry.keyword q).map Entry.stray ∧
    e.diagnostics.filter (·.problem.isUnclosedBlock) =
      (unmatched Entry.keyword q).map Entry.unclosed ∧
    (∀ b : Entry, b.stray.problem.kind = .structural ∧ b.unclosed.problem.kind = .structural) ∧
    e.log.filter Event.isUnderflow = (strays Entry.keyword q).map fun _ => .blockUnderflow := by
  refine ⟨map_entry_visits l pixels, fun i v hv => ?_, filter_isStrayClose_diagnostics l pixels,
    filter_isUnclosedBlock_diagnostics l pixels, fun _ => ⟨rfl, rfl⟩,
    underflows_evaluatePixels l pixels⟩
  have hblocks := blockFrames_visits hv
  rw [← map_entry_openVisits l pixels i]
  refine ⟨blockPlaces_of_blockFrames hblocks, ?_⟩
  rw [v.filter_isStrayClose (keyword_of_mem_visits (List.mem_of_getElem? hv)), List.isEmpty_map]
  simp only [Visit.isStray_iff hblocks]

end Language

end PixelLang
