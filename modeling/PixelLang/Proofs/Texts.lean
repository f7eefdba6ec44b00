import PixelLang.Proofs.Stretches
import PixelLang.Proofs.Validity

/-!
# What is written of a statement

The code of a program is put together from one text for each entry of its queue: the code that was
generated, or a comment where the entry was invalid.

* `code_generate_ne_comment`: the code of a statement that reports nothing is never the comment, so
  that the two can be told apart in the output.
* `State.code_atEnd`: each visit adds its text to the code, after what separates it from the text
  before; leaving scopes writes nothing.
* `Language.written_iff`: where an entry left a comment, there is a diagnostic, and only there.
-/

set_option autoImplicit false

namespace PixelLang

open Reader

/-! ## Comments -/

namespace Keyword

/-- What is written of an invalid statement. -/
def comment (k : Keyword) : String := "// " ++ k.key ++ ": invalid statement"

/-- A text that starts or ends otherwise, or holds an assignment, is not a comment. -/
theorem ne_comment {k : Keyword} {text : String}
    (h : text.toList.head? ≠ some '/' ∨ text.toList.getLast? ≠ some 't' ∨ '=' ∈ text.toList) :
    text ≠ k.comment := by
  rintro rfl
  rcases h with h | h | h
  · exact h (by simp [comment])
  · exact h (by simp only [comment, String.toList_append, List.getLast?_append]; rfl)
  · exact absurd h (by cases k <;> simp [comment, key])

end Keyword

/-- What is read as a call is a name, with or without arguments. -/
theorem exists_evalAs_call (scope : Scope) {r : Reader} (hrem : r.remaining ≠ []) :
    ∃ callee arguments, (r.evalAs scope .call).1 = .call callee arguments := by
  show ∃ callee arguments, (r.readCall scope _).1 = _
  obtain ⟨first, rest, hcons⟩ := List.exists_cons_of_ne_nil hrem
  unfold readCall nextSequence
  rw [hcons]
  dsimp only
  split
  · dsimp only [readCallOf]
    repeat' split
    all_goals exact ⟨_, _, rfl⟩
  · exact ⟨_, _, rfl⟩

/-- A call that reports nothing has its arguments in brackets: a plain name would be reported. -/
theorem exists_code_generateCall {ctx : Context} {r : Reader} (hr : r.diagnostics = [])
    (h : (generateCall ctx r).2.diagnostics = []) :
    ∃ callee arguments, (generateCall ctx r).1.code = Expression.applied callee arguments := by
  unfold generateCall at h ⊢
  cases hrem : r.remaining with
  | nil => simp [hrem, reportIn, record] at h
  | cons first rest =>
    obtain ⟨callee, arguments, hcall⟩ := exists_evalAs_call ctx.scope (r := r) (by simp [hrem])
    simp only [hrem, hcall] at h ⊢
    cases arguments with
    | some arguments => exact ⟨callee, Expression.codes arguments, rfl⟩
    | none =>
      split at h
      · simp [report, record] at h
      · rename_i hcount
        simp [Expression.isPlainName, h, hr] at hcount

theorem code_generateCall_ne_comment {ctx : Context} {r : Reader} (hr : r.diagnostics = [])
    (h : (generateCall ctx r).2.diagnostics = []) :
    (generateCall ctx r).1.code ≠ Keyword.call.comment := by
  obtain ⟨callee, arguments, hcode⟩ := exists_code_generateCall hr h
  refine Keyword.ne_comment (.inr (.inl ?_))
  rw [hcode]
  simp only [Expression.applied, String.toList_append, List.getLast?_append]
  nofun

theorem code_generateDeclare_ne_comment (ctx : Context) (r : Reader) :
    (generateDeclare ctx r).1.code ≠ Keyword.declare.comment := by
  refine Keyword.ne_comment ?_
  unfold generateDeclare
  rcases r.readName .declare 1 with ⟨_ | name, r'⟩
  · exact .inl nofun
  · dsimp only
    split
    · exact .inl (by simp [declareFunction])
    · unfold declareVariable
      dsimp only
      split
      · exact .inl (by simp)
      · exact .inr (.inr (by simp))
      · exact .inl (by simp)

theorem code_generateLeave_ne_comment (ctx : Context) (r : Reader) :
    (generateLeave ctx r).1.code ≠ Keyword.ret.comment := by
  refine Keyword.ne_comment (.inl ?_)
  unfold generateLeave
  split
  · simp only [generateReturn]
    split <;> simp
  · simp [generateBreak]
  · simp

theorem code_generateStruct_ne_comment (ctx : Context) (r : Reader) :
    (generateStruct ctx r).1.code ≠ Keyword.struct.comment := by
  refine Keyword.ne_comment (.inl ?_)
  unfold generateStruct
  rcases r.readName .struct 1 with ⟨_ | name, r'⟩
  · simp
  · dsimp only
    generalize Reader.readNames .struct 2 _ = fields
    split <;> simp

theorem openingCode_ne_comment (ctx : Context) (names : List Pixel) :
    openingCode ctx names ≠ Keyword.blockOpen.comment := by
  refine Keyword.ne_comment (.inl ?_)
  unfold openingCode
  repeat' split
  all_goals simp

theorem Reader.diagnostics_next (r : Reader) : r.next.2.diagnostics = r.diagnostics := by
  obtain ⟨p, hn, -⟩ | hn := next_cases r
  · rw [hn]
    rfl
  · rw [hn]

/-- **Code is not a comment**: a statement that reports nothing is told apart from an invalid
one by what is written of it. -/
theorem code_generate_ne_comment {k : Keyword} {ctx : Context} {r : Reader}
    (hr : r.diagnostics = []) (h : (k.generate ctx r).2.diagnostics = []) :
    (k.generate ctx r).1.code ≠ k.comment := by
  have hnext : r.next.2.diagnostics = [] := r.diagnostics_next.trans hr
  unfold Keyword.generate at h ⊢
  cases k with
  | declare => exact code_generateDeclare_ne_comment ctx _
  | call => exact code_generateCall_ne_comment hnext h
  | ret => exact code_generateLeave_ne_comment ctx _
  | struct => exact code_generateStruct_ne_comment ctx _
  | blockOpen => exact openingCode_ne_comment ctx _
  | forEach =>
    exact Keyword.ne_comment (.inr (.inl (by
      simp [Keyword.generator, generateForEach, List.getLast?_append])))
  | ifThen => exact Keyword.ne_comment (.inl (by simp [Keyword.generator, generateIf]))
  | orElse => exact Keyword.ne_comment (.inl (by simp [Keyword.generator, generateElse]))
  | whileLoop => exact Keyword.ne_comment (.inl (by simp [Keyword.generator, generateWhile]))
  | print => exact Keyword.ne_comment (.inl (by simp [Keyword.generator, generatePrint]))
  | blockClose => exact Keyword.ne_comment (.inl (by simp [Keyword.generator, generateClose]))

/-! ## Texts -/

namespace Visit

/-- The line that the entry is laid out as. -/
def line (v : Visit) : Line := v.state.entryLine v.context v.entry v.generated v.reader

/-- What is written of the entry. -/
def text (v : Visit) : String := v.line.text

/-- What stands between the text before and the text of the entry: a joiner, or line ends and
indentation. -/
def lead (v : Visit) : String := v.state.layout.lead v.line

theorem code_after (v : Visit) :
    v.after.layout.code = v.state.layout.code ++ (v.lead ++ v.text) :=
  String.append_assoc ..

theorem text_eq (v : Visit) :
    v.text = if v.reader.diagnostics = [] then v.generated.code else v.entry.keyword.comment := by
  have hflag : v.line.invalid = !v.reader.diagnostics.isEmpty := v.flagged_reader
  rw [text, Line.text, hflag]
  cases v.reader.diagnostics <;> rfl

/-- Generating an entry only adds to what was reported on its reader before. -/
theorem diagnostics_entryReader {v : Visit} (h : v.reader.diagnostics = []) :
    (v.state.entryReader v.entry).diagnostics = [] := by
  obtain ⟨hread, hindex⟩ := reads_entryReader v.state v.entry
  have hpos : 0 < (v.state.entryReader v.entry).length := by
    rw [hread.length_eq]
    exact length_reader_pos v.entry
  obtain ⟨ds, -, hds⟩ := diagnostics_generate v.entry.keyword v.context hindex hpos
  have hall : v.reader.diagnostics = _ := hds
  rw [h, List.append_assoc] at hall
  exact (List.append_eq_nil_iff.1 hall.symm).1

theorem text_eq_comment_iff (v : Visit) :
    v.text = v.entry.keyword.comment ↔ v.reader.diagnostics ≠ [] := by
  rw [text_eq]
  split
  · rename_i hnone
    exact iff_of_false (code_generate_ne_comment (diagnostics_entryReader hnone) hnone)
      (not_not_intro hnone)
  · rename_i hsome
    exact iff_of_true rfl hsome

end Visit

/-! ## The code of a run -/

namespace State

theorem layout_settle (previous current : Option Keyword) (s : State) :
    (s.settle previous current).layout = s.layout := by
  obtain ⟨log, heq, -⟩ := leaves_settle previous current s
  rw [heq]

theorem layout_pop (s : State) : s.pop.layout = s.layout := by
  unfold pop
  split <;> rfl

theorem layout_closeRemaining (s : State) : s.closeRemaining.layout = s.layout := by
  refine List.foldlRecOn (motive := fun t : State => t.layout = s.layout) s.scope.frames closeFrame
    rfl fun t ht frame _ => ?_
  unfold closeFrame
  split
  · rw [layout_pop, ht]
  · rw [layout_pop]
    exact ht

/-- The texts of a run, each after what separates it from the one before. -/
theorem code_atEnd (previous : Option Keyword) (q : List Entry) (s : State) :
    (atEnd previous q s).layout.code =
      s.layout.code ++ String.join ((visits previous q s).map fun v => v.lead ++ v.text) := by
  induction q generalizing previous s with
  | nil => simp [atEnd, visits, layout_settle]
  | cons e rest ih =>
    have hstate : (s.visit previous e rest).state.layout = s.layout := layout_settle ..
    rw [atEnd_cons, ih, Visit.code_after, hstate, visits, List.map_cons, String.join_cons,
      String.append_assoc]

end State

namespace Language

theorem layout_startState (l : Language) (parts : List Partition) :
    (l.startState parts).layout = .empty := by
  have hfold : (List.foldl State.collect (.start l.globalScope l.globalLog)
      (orphanReaders parts)).layout = .empty :=
    List.foldlRecOn (motive := fun s : State => s.layout = .empty) _ State.collect rfl
      fun _ hs _ _ => hs
  exact hfold

/-- The code of a program: the texts of its entries, and a line end after the last. -/
theorem code_evaluatePixels (l : Language) (pixels : List Pixel) :
    (l.evaluatePixels pixels).code =
      let texts := String.join ((l.visits pixels).map fun v => v.lead ++ v.text)
      if texts.isEmpty then "" else texts ++ "\n" := by
  have hstart : (l.startState (subdivide pixels)).layout.code = "" :=
    congrArg Layout.code (layout_startState l (subdivide pixels))
  show Layout.finish (State.run none _ _).layout = _
  rw [State.run_eq, State.layout_closeRemaining, Layout.finish, State.code_atEnd, hstart,
    String.empty_append]
  rfl

/-- **Diagnostics and comments agree, statement by statement.** A program is invalidated exactly if
it has a diagnostic: one of pixels before the first keyword, one of an entry of the queue, or one of
a block that is never closed. Its code is one text for each entry, in order. The text is the comment
of an invalid statement exactly if a diagnostic was recorded on the reader of the entry, and
otherwise the code that was generated. -/
theorem written_iff (l : Language) (pixels : List Pixel) :
    let e := l.evaluatePixels pixels
    let texts := String.join ((l.visits pixels).map fun v => v.lead ++ v.text)
    (e.invalidated = true ↔ e.diagnostics ≠ []) ∧
    e.diagnostics =
      (orphanReaders (subdivide pixels)).flatMap (·.diagnostics) ++
        (l.visits pixels).flatMap (·.reader.diagnostics) ++
        (State.blocks (l.atEnd pixels).scope.frames).map State.unclosed ∧
    (l.visits pixels).map (·.entry) = enqueue (subdivide pixels) ∧
    e.code = (if texts.isEmpty then "" else texts ++ "\n") ∧
    ∀ v ∈ l.visits pixels,
      (v.text = "// " ++ v.entry.keyword.key ++ ": invalid statement" ↔
        v.reader.diagnostics ≠ []) ∧
      (v.reader.diagnostics = [] → v.text = v.generated.code) := by
  refine ⟨?_, diagnostics_evaluatePixels l pixels, map_entry_visits l pixels,
    code_evaluatePixels l pixels, fun v _ => ⟨v.text_eq_comment_iff, fun h => ?_⟩⟩
  · rw [invalidated_eq]
    cases (l.evaluatePixels pixels).diagnostics <;> simp
  · rw [v.text_eq, if_pos h]

end Language

end PixelLang
