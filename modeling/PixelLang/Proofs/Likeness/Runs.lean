import PixelLang.Evaluation
import PixelLang.Proofs.Likeness.Statements
import PixelLang.Proofs.Nesting

/-!
# Runs alike

Programs whose pixels stand for each other are evaluated alike. They are cut into the same
statements, every step keeps the states alike (`States.step`), and so does a run (`States.run`).
What comes out are texts that stand for each other and the same diagnostics, token by token
(`Language.evaluatePixels_alike`).
-/

set_option autoImplicit false

namespace PixelLang.Likeness

variable (L : Likeness)

structure Partitions (a a' : Partition) : Prop where
  head : L.pixel a.head a'.head
  tail : List.Forall₂ L.pixel a.tail a'.tail

structure Entries (e e' : Entry) : Prop where
  keyword : e.keyword = e'.keyword
  partition : L.Partitions e.partition e'.partition
  chain : e.chain = e'.chain

structure Lines (line line' : Line) : Prop where
  keyword : line.keyword = line'.keyword
  previous : line.previous = line'.previous
  declaresFunction : line.declaresFunction = line'.declaresFunction
  depth : line.depth = line'.depth
  invalid : line.invalid = line'.invalid
  code : L.text line.code line'.code

structure Layouts (x x' : Layout) : Prop where
  code : L.text x.code x'.code
  last : x.last = x'.last
  lastInvalid : x.lastInvalid = x'.lastInvalid
  blankPending : x.blankPending = x'.blankPending

/-- Logs are not compared. -/
structure States (s s' : State) : Prop where
  scope : L.Scopes s.scope s'.scope
  layout : L.Layouts s.layout s'.layout
  pending : Option.Rel L.Pendings s.pending s'.pending
  invalidated : s.invalidated = s'.invalidated
  diagnostics : List.Forall₂ L.Diagnostics s.diagnostics s'.diagnostics

variable {L} {ps qs : List Pixel} {a a' : Partition} {as as' : List Partition} {e e' : Entry}
  {s s' : State}

/-! ## Statements of a program -/

theorem Partitions.pixels (h : L.Partitions a a') : List.Forall₂ L.pixel a.pixels a'.pixels :=
  .cons h.head h.tail

theorem Partitions.keyword? (h : L.Partitions a a') : a.keyword? = a'.keyword? :=
  eq_of_kind Pixel.keyword? (fun _ => rfl) h.head

theorem Partitions.reader (h : L.Partitions a a') : L.Readers a.reader a'.reader := by
  rw [Partition.reader, Partition.reader, h.keyword?]
  exact .ofPixels _ h.pixels

theorem subdivide_alike (h : List.Forall₂ L.pixel ps qs) :
    List.Forall₂ L.Partitions (subdivide ps) (subdivide qs) := by
  induction h with
  | nil => exact .nil
  | @cons p q ps qs hp _ ih =>
    rw [subdivide, subdivide]
    generalize subdivide ps = as at ih ⊢
    generalize subdivide qs = as' at ih ⊢
    cases ih with
    | nil => exact .cons ⟨hp, .nil⟩ .nil
    | cons ha has =>
      dsimp only
      rw [eq_of_kind Pixel.isKeyword (fun _ => rfl) ha.head]
      split
      · exact .cons ⟨hp, .nil⟩ (.cons ha has)
      · exact .cons ⟨hp, ha.pixels⟩ has

theorem chainsOn_eq (k : Keyword) (h : L.Partitions a a') (has : List.Forall₂ L.Partitions as as') :
    chainsOn k a as = chainsOn k a' as' := by
  have hnext : as.head?.bind Partition.keyword? = as'.head?.bind Partition.keyword? := by
    cases has with
    | nil => rfl
    | cons hnext _ => exact hnext.keyword?
  rw [chainsOn, chainsOn, Partition.isBare, Partition.isBare, isEmpty_eq_of_forall₂ h.tail, hnext]

theorem enqueueFrom_alike (h : List.Forall₂ L.Partitions as as') (chain : Nat) :
    List.Forall₂ L.Entries (enqueueFrom chain as) (enqueueFrom chain as') := by
  induction h generalizing chain with
  | nil => exact .nil
  | cons ha has ih =>
    rw [enqueueFrom, enqueueFrom, ha.keyword?]
    split
    · exact ih chain
    · rw [chainsOn_eq _ ha has]
      split
      · exact ih (chain + 1)
      · exact .cons ⟨rfl, ha, rfl⟩ (ih 0)

theorem orphanReaders_alike (h : List.Forall₂ L.Partitions as as') :
    List.Forall₂ L.Readers (orphanReaders as) (orphanReaders as') := by
  refine List.rel_map (R := L.Partitions) (fun a a' ha => ?_)
    (List.rel_filter (fun a a' ha => ?_) h)
  · rw [Partition.orphanReader, Partition.orphanReader, ha.pixels.length_eq]
    exact ha.reader.report (.same _) _
  · show a.keyword?.isNone = true ↔ a'.keyword?.isNone = true
    rw [ha.keyword?]

/-! ## Layout -/

theorem Lines.text {line line' : Line} (h : L.Lines line line') :
    L.text line.text line'.text := by
  rw [Line.text, Line.text, h.invalid, h.keyword]
  split
  · exact L.text_refl _
  · exact h.code

namespace Layouts

variable {x x' : Layout} {line line' : Line}

theorem joiner? (h : L.Layouts x x') (hline : L.Lines line line') :
    x.joiner? line = x'.joiner? line' := by
  rw [Layout.joiner?, Layout.joiner?, h.last, h.lastInvalid, hline.invalid, hline.previous,
    hline.keyword, hline.declaresFunction]

theorem lineBreak (h : L.Layouts x x') (k : Keyword) : x.lineBreak k = x'.lineBreak k := by
  rw [Layout.lineBreak, Layout.lineBreak, L.text_isEmpty h.code, Layout.wantsBlank,
    Layout.wantsBlank, h.last, h.blankPending]

theorem lead (h : L.Layouts x x') (hline : L.Lines line line') : x.lead line = x'.lead line' := by
  rw [Layout.lead, Layout.lead, h.joiner? hline, L.text_isEmpty hline.text, hline.keyword,
    h.lineBreak, Line.level, Line.level, hline.keyword, hline.depth]

theorem emit (h : L.Layouts x x') (hline : L.Lines line line') :
    L.Layouts (x.emit line) (x'.emit line') where
  code := by
    rw [Layout.emit, Layout.emit, h.lead hline]
    exact L.text_append (L.text_append h.code (L.text_refl _)) hline.text
  last := congrArg some hline.keyword
  lastInvalid := hline.invalid
  blankPending := by
    rw [Layout.emit, Layout.emit, Layout.writes, Layout.writes, h.joiner? hline, h.blankPending,
      hline.keyword, L.text_isEmpty hline.text]

theorem finish (h : L.Layouts x x') : L.text x.finish x'.finish := by
  rw [Layout.finish, Layout.finish, L.text_isEmpty h.code]
  split
  · exact L.text_refl _
  · exact L.text_append h.code (L.text_refl _)

end Layouts

/-! ## One statement -/

namespace States

theorem collect (h : L.States s s') {r r' : Reader} (hr : L.Readers r r') :
    L.States (s.collect r) (s'.collect r') :=
  { h with
    invalidated := congrArg₂ (· || ·) h.invalidated hr.invalidated
    diagnostics := List.rel_append h.diagnostics hr.diagnostics }

theorem settle (h : L.States s s') (previous current : Option Keyword) :
    L.States (s.settle previous current) (s'.settle previous current) := by
  obtain ⟨log, heq, -⟩ := State.leaves_settle previous current s
  obtain ⟨log', heq', -⟩ := State.leaves_settle previous current s'
  -- which frames are left depends on nothing but which are temporary
  have hframes := forall₂_settledStack (fun _ _ hf => hf.temporary) previous current h.scope.frames
  rw [heq, heq']
  exact { h with scope := ⟨hframes, h.scope.globals⟩ }

theorem context (h : L.States s s') (previous next : Option Keyword) (he : L.Entries e e') :
    L.Contexts (s.context previous next e) (s'.context previous next e') where
  scope := h.scope
  previous := rfl
  next := rfl
  chain := he.chain
  declaresFunction := by
    rw [State.context, State.context, he.keyword, isSome_eq_of_rel h.pending]

theorem entryReader (h : L.States s s') (he : L.Entries e e') :
    L.Readers (s.entryReader e) (s'.entryReader e') := by
  have hblock : s.scope.inBlock = s'.scope.inBlock :=
    any_eq_of_forall₂ (fun _ _ hf => congrArg (!·) hf.temporary) h.scope.frames
  have hreader : L.Readers e.reader e'.reader := he.partition.reader
  rw [State.entryReader, State.entryReader, State.isStray, State.isStray, he.keyword, hblock]
  exact Readers.ite Iff.rfl (hreader.report (.same _) _) hreader

variable {ctx ctx' : Context} {g g' : Generated}

theorem bound (h : L.States s s') (hctx : L.Contexts ctx ctx') (hg : L.Generations g g') :
    L.Scopes (s.bound ctx g) (s'.bound ctx' g') := by
  have hscope := h.scope.defineAll hg.definitions
  rw [State.bound, State.bound]
  obtain ⟨hn, hn'⟩ | ⟨w, w', hw, hw', hww⟩ := rel_cases h.pending
  · rw [hn, hn']
    exact hscope
  · rw [hw, hw', hctx.declaresFunction]
    dsimp only
    split
    · have hparameters : L.Overloads ⟨g.parameters.map fun entry => .named entry.2.name⟩
          ⟨g'.parameters.map fun entry => .named entry.2.name⟩ :=
        List.rel_map (fun _ _ hentry => ⟨false, .some hentry.2.name⟩) hg.parameters
      exact hscope.define hww.key (.func false hww.name (.cons hparameters .nil))
    · exact hscope

theorem scopeAfter (h : L.States s s') (hctx : L.Contexts ctx ctx') (he : L.Entries e e')
    (hg : L.Generations g g') : L.Scopes (s.scopeAfter ctx e g) (s'.scopeAfter ctx' e' g') := by
  have hbound := h.bound hctx hg
  have howner : L.Owners (State.entryOwner ctx e) (State.entryOwner ctx' e') := by
    refine ⟨?_, L.place_pixel he.partition.head⟩
    rw [State.entryOwner, State.entryOwner, he.keyword, hctx.previous, hctx.declaresFunction]
  rw [State.scopeAfter, State.scopeAfter, State.opening?, State.opening?, he.keyword, hctx.next]
  split
  · have hinner := hbound.push (.some howner) ‹Bool›
    dsimp only
    split
    · exact hinner
    · exact hinner.defineAll hg.parameters
  · exact hbound

theorem entryLine (h : L.States s s') (hctx : L.Contexts ctx ctx') (he : L.Entries e e')
    (hg : L.Generations g g') {r r' : Reader} (hr : L.Readers r r') :
    L.Lines (s.entryLine ctx e g r) (s'.entryLine ctx' e' g' r') where
  keyword := he.keyword
  previous := hctx.previous
  declaresFunction := hctx.declaresFunction
  depth := h.scope.depth
  invalid := hr.invalidated
  code := hg.code

theorem evalEntry (h : L.States s s') (previous next : Option Keyword) (he : L.Entries e e') :
    L.States (s.evalEntry previous next e) (s'.evalEntry previous next e') := by
  have hctx := h.context previous next he
  have hgenerate := (h.entryReader he).generate e.keyword hctx
  rw [State.evalEntry, State.evalEntry, ← he.keyword]
  exact
    { scope := h.scopeAfter hctx he hgenerate.value
      layout := h.layout.emit (h.entryLine hctx he hgenerate.value hgenerate.reader)
      pending := hgenerate.value.pending
      invalidated := congrArg₂ (· || ·) h.invalidated hgenerate.reader.invalidated
      diagnostics := List.rel_append h.diagnostics hgenerate.reader.diagnostics }

theorem step (h : L.States s s') (previous next : Option Keyword) (he : L.Entries e e') :
    L.States (s.step previous next e) (s'.step previous next e') := by
  rw [State.step, State.step, he.keyword]
  exact (h.settle previous (some e'.keyword)).evalEntry previous next he

/-! ## Runs -/

theorem pop (h : L.States s s') : L.States s.pop s'.pop := by
  have hframes := h.scope.frames
  rw [State.pop, State.pop, Scope.pop?, Scope.pop?]
  generalize s.scope.frames = frames at hframes ⊢
  generalize s'.scope.frames = frames' at hframes ⊢
  cases hframes with
  | nil => exact { h with }
  | cons _ houter => exact { h with scope := ⟨houter, h.scope.globals⟩ }

theorem closeFrame (h : L.States s s') {f f' : Frame} (hf : L.Frames f f') :
    L.States (s.closeFrame f) (s'.closeFrame f') := by
  have hunclosed : L.Diagnostics (State.unclosed f) (State.unclosed f') := by
    rw [State.unclosed, State.unclosed]
    obtain ⟨hn, hn'⟩ | ⟨o, o', ho, ho', hoo⟩ := rel_cases hf.owner
    · rw [hn, hn']
      exact ⟨.same _, L.place_zero, rfl, rfl, rfl⟩
    · rw [ho, ho']
      exact ⟨.unclosedBlock hoo.place, hoo.place, rfl, rfl, rfl⟩
  rw [State.closeFrame, State.closeFrame, hf.temporary]
  split
  · exact h.pop
  · refine pop ?_
    exact
      { h with
        invalidated := rfl
        diagnostics := List.rel_append h.diagnostics (.cons hunclosed .nil) }

theorem closeRemaining (h : L.States s s') : L.States s.closeRemaining s'.closeRemaining :=
  List.rel_foldl (R := L.Frames) (P := L.States) (fun _ _ hs _ _ hf => hs.closeFrame hf) h
    h.scope.frames

theorem run {queue queue' : List Entry} (hqueue : List.Forall₂ L.Entries queue queue')
    (previous : Option Keyword) (h : L.States s s') :
    L.States (s.run previous queue) (s'.run previous queue') := by
  induction hqueue generalizing previous s s' with
  | nil => exact (h.settle previous none).closeRemaining
  | @cons e e' rest rest' he hrest ih =>
    have hnext : rest.head?.map (·.keyword) = rest'.head?.map (·.keyword) := by
      cases hrest with
      | nil => rfl
      | cons hnext _ => exact congrArg some hnext.keyword
    rw [State.run, State.run, hnext, he.keyword]
    exact ih _ (h.step previous _ he)

end States

/-- **Programs that are alike are evaluated alike.** -/
theorem evaluatePixels_alike {l : Language} (h : List.Forall₂ L.pixel ps qs)
    (hglobals : List.Forall₂ L.Bound l.globalBindings.entries l.globalBindings.entries) :
    L.text (l.evaluatePixels ps).code (l.evaluatePixels qs).code ∧
      (l.evaluatePixels ps).invalidated = (l.evaluatePixels qs).invalidated ∧
      List.Forall₂ L.Diagnostics (l.evaluatePixels ps).diagnostics
        (l.evaluatePixels qs).diagnostics := by
  have hparts := subdivide_alike h
  have hfirst : L.States (.start l.globalScope l.globalLog) (.start l.globalScope l.globalLog) :=
    ⟨⟨.nil, hglobals⟩, ⟨L.text_refl _, rfl, rfl, rfl⟩, .none, rfl, .nil⟩
  have hstart : L.States (l.startState (subdivide ps)) (l.startState (subdivide qs)) := by
    have hfold := List.rel_foldl (R := L.Readers) (P := L.States)
      (fun _ _ hs _ _ hr => hs.collect hr) hfirst (orphanReaders_alike hparts)
    exact { hfold with }
  have hfinal := States.run (enqueueFrom_alike hparts 0) none hstart
  exact ⟨hfinal.layout.finish, hfinal.invalidated, hfinal.diagnostics⟩

end PixelLang.Likeness
