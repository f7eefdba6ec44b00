import PixelLang.Proofs.Reading
import PixelLang.Statement.Generate

/-!
# What generating a statement reports

A statement is generated in two parts: its tokens are read (`Reader.Reads Problem.OfTokens`), and
at the end its place among the other statements is checked, which depends on the context alone
(`Keyword.misplaced?`) and is reported at the keyword. `generate_reads` says so of every statement;
all else about the diagnostics of a statement follows from it:

* `reads_generate`: every diagnostic of a statement is reported at one of its pixels.
* `diagnostics_generate`: a statement reports what is wrong with its tokens, then at most one
  problem of its place.
-/

set_option autoImplicit false

namespace PixelLang

/-- The problems that reading the tokens of a statement can report. -/
def Problem.OfTokens : Problem → Prop
  | noBody _ | noLoopBlock | returnOutsideFunction | breakOutsideLoop | orphans _ | strayClose _
  | unclosedBlock .. | other .. => False
  | _ => True

theorem Problem.OfExpression.ofTokens {p : Problem} (h : p.OfExpression) : p.OfTokens := by
  cases p <;> trivial

/-- What is wrong with the place of a statement: a head has no body, a loop no block, or there is
no function or loop to leave. -/
def Keyword.misplaced? (k : Keyword) (ctx : Context) : Option Problem :=
  match k with
  | ifThen | orElse | whileLoop =>
    if ctx.next = none ∨ ctx.next = some blockClose then some (.noBody k) else none
  | forEach => if ctx.next = some blockOpen then none else some .noLoopBlock
  | ret =>
    if ctx.chain = 1 ∧ (ctx.scope.enclosing? (· == declare)).isNone then
      some .returnOutsideFunction
    else if ctx.chain = 2 ∧ (ctx.scope.enclosing? fun k => k == forEach || k == whileLoop).isNone
    then some .breakOutsideLoop
    else none
  | _ => none

/-- The problems of place are no others. -/
theorem Keyword.misplaced?_cases {k : Keyword} {ctx : Context} {problem : Problem}
    (h : k.misplaced? ctx = some problem) :
    problem = .noBody k ∨ problem = .noLoopBlock ∨ problem = .returnOutsideFunction ∨
      problem = .breakOutsideLoop := by
  unfold misplaced? at h
  repeat' split at h
  all_goals simp_all

namespace Reader

/-- Reports at the first pixel what is wrong with the place of a statement, if anything. -/
def reportPlace (r : Reader) : Option Problem → Reader
  | some problem => r.report problem .first
  | none => r

/-! ## Tokens -/

section
variable {r : Reader}

theorem reads_eval (scope : Scope) (r : Reader) : Reads Problem.OfTokens r (r.eval scope).2 :=
  (reads_evalAs scope (r.analyze scope) r).mono fun _ => Problem.OfExpression.ofTokens

/-- A name is read, and then the cursor was inside the pixels before it. -/
theorem reads_readName (k : Keyword) (token : Nat) (hpos : 0 < r.length) :
    Reads Problem.OfTokens r (r.readName k token).2 ∧
      ∀ p, (r.readName k token).1 = some p → r.index < r.length := by
  unfold readName
  obtain ⟨p, hn, hlt⟩ | hn := next_cases r
  · have hstep : Reads Problem.OfTokens r (r.advance 1) := reads_advance r 1
    simp only [hn]
    split
    · exact ⟨hstep, fun _ _ => hlt⟩
    · exact ⟨hstep.trans (reads_reportIn _ trivial (cursor_lt hpos)), fun _ _ => hlt⟩
  · simp only [hn]
    exact ⟨reads_reportIn _ trivial (cursor_lt hpos), nofun⟩

theorem reads_readNamesStep (k : Keyword) (token : Nat) (acc : List Pixel × Reader) (p : Pixel)
    (h : 0 < acc.2.length) :
    Reads Problem.OfTokens acc.2 (readNamesStep k token acc p).2 := by
  have hstep : Reads Problem.OfTokens acc.2 (acc.2.advance 1) := reads_advance acc.2 1
  unfold readNamesStep
  dsimp only
  split
  · exact hstep.trans (reads_reportIn _ trivial (cursor_lt h))
  · split
    · exact hstep.trans (reads_report trivial (cursor_lt h))
    · exact hstep

theorem reads_readNames (k : Keyword) (token : Nat) (r : Reader) :
    Reads Problem.OfTokens r (r.readNames k token).2 :=
  reads_foldl (reads_readNamesStep k token) r.remaining ([], r) length_pos_of_remaining

theorem reads_rejectTrailing (k : Keyword) (r : Reader) :
    Reads Problem.OfTokens r (r.rejectTrailing k) := by
  unfold rejectTrailing
  obtain ⟨p, hn, hlt⟩ | hn := next_cases r
  · have hstep : Reads Problem.OfTokens r (r.advance 1) := reads_advance r 1
    have hcursor := cursor_lt (r := r.advance 1) (Nat.zero_lt_of_lt hlt)
    simp only [hn]
    exact hstep.trans (reads_reportIn_skipToEnd _ trivial hcursor)
  · simp only [hn]
    exact .refl r

/-- A problem that only some outcomes of reading have, reported at the pixel read last. -/
theorem Reads.reportIn_if {r' : Reader} (h : Reads Problem.OfTokens r r') (b : Bool)
    (template : Template) (problem : Problem) (hp : problem.OfTokens) (hpos : 0 < r.length) :
    Reads Problem.OfTokens r (if b then r'.reportIn template problem .cursor else r') := by
  cases b with
  | false => exact h
  | true => exact h.trans (reads_reportIn template hp (cursor_lt (h.length_eq ▸ hpos)))

end

end Reader

open Reader

/-! ## Single statements

The keyword was read before: the cursor is at the second pixel. -/

section
variable {r : Reader} (ctx : Context)

theorem reads_declareFunction (existing : Option Member) (name : Pixel) {start : Nat}
    (h : start < r.length) :
    Reads Problem.OfTokens r (declareFunction existing name start r).2 := by
  have hvalue (s : Reader) : Reads Problem.OfTokens s
      (if s.hasNext then
        (s.reportIn (Keyword.declare.template.failedAt 2) .valueOfFunction
          (.index s.index)).skipToEnd
      else s) := by
    split
    · rename_i hnext
      exact reads_reportIn_skipToEnd _ trivial (of_decide_eq_true hnext)
    · exact .refl s
  cases existing with
  | some m =>
    have hdefined : Reads Problem.OfTokens r (r.report (.alreadyDefined name m) (.index start)) :=
      reads_report trivial h
    exact hdefined.trans (hvalue _)
  | none => exact hvalue r

theorem reads_declareVariable (scope : Scope) (existing : Option Member) (name : Pixel)
    {start : Nat} (h : start < r.length) :
    Reads Problem.OfTokens r (declareVariable scope existing name start r).2 := by
  have hvalue := (reads_eval scope r).reportIn_if (r.eval scope).1.isEmpty
    (Keyword.declare.template.failedAt 2) (.missingValue name) trivial (Nat.zero_lt_of_lt h)
  unfold declareVariable
  dsimp only
  split
  · exact hvalue
  · exact hvalue
  · refine hvalue.trans (reads_report trivial ?_)
    rw [hvalue.length_eq]
    exact h

theorem reads_generateDeclare (hpos : 0 < r.length) :
    Reads Problem.OfTokens r (generateDeclare ctx r).2 := by
  obtain ⟨hread, hin⟩ := reads_readName .declare 1 hpos
  unfold generateDeclare
  rcases hn : r.readName .declare 1 with ⟨_ | name, r'⟩
  all_goals rw [hn] at hread hin
  · exact hread
  · have hlt : r.index < r'.length := by rw [hread.length_eq]; exact hin name rfl
    dsimp only
    split
    · exact hread.trans (reads_declareFunction _ _ hlt)
    · exact hread.trans (reads_declareVariable _ _ _ hlt)

theorem reads_generateCall (hpos : 0 < r.length) :
    Reads Problem.OfTokens r (generateCall ctx r).2 := by
  unfold generateCall
  cases hrem : r.remaining with
  | nil => exact (Reads.refl r).reportIn_if true _ .missingFunction trivial hpos
  | cons callee rest =>
    have hlen := length_remaining r
    rw [hrem, List.length_cons] at hlen
    have hcall : Reads Problem.OfTokens r (r.evalAs ctx.scope .call).2 :=
      (reads_evalAs ctx.scope .call r).mono fun _ => Problem.OfExpression.ofTokens
    dsimp only
    split
    · refine hcall.trans (reads_report trivial ?_)
      rw [hcall.length_eq]
      show r.index < r.length
      omega
    · exact hcall

theorem reads_generateOpen (hr : r.index = 1) :
    Reads Problem.OfTokens r (generateOpen ctx r).2 := by
  have hnames := reads_readNames .blockOpen 1 r
  unfold generateOpen
  dsimp only
  split
  · exact hnames
  · rename_i hstray
    -- a name was read, so there is a pixel after the keyword
    have hne : r.remaining ≠ [] := by
      intro hnil
      simp [readNames, hnil] at hstray
    have hrem := length_remaining r
    have hpos := List.length_pos_iff.2 hne
    refine hnames.trans (reads_report trivial ?_)
    rw [hnames.length_eq]
    show 1 < r.length
    omega

theorem reads_generateStruct (hpos : 0 < r.length) :
    Reads Problem.OfTokens r (generateStruct ctx r).2 := by
  obtain ⟨hread, hin⟩ := reads_readName .struct 1 hpos
  unfold generateStruct
  rcases hn : r.readName .struct 1 with ⟨_ | name, r'⟩
  all_goals rw [hn] at hread hin
  · exact hread
  · have hreport (m : Member) :
        Reads Problem.OfTokens r (r'.report (.alreadyDefined name m) (.index r.index)) := by
      refine hread.trans (reads_report trivial ?_)
      rw [hread.length_eq]
      exact hin name rfl
    dsimp only
    split
    · exact (hreport _).trans (reads_readNames .struct 2 _)
    · exact hread.trans (reads_readNames .struct 2 r')

end

/-! ## All statements -/

theorem requireBody_eq (k : Keyword) (next : Option Keyword) (r : Reader) :
    r.requireBody k next =
      r.reportPlace (if next = none ∨ next = some .blockClose then some (.noBody k) else none) := by
  unfold requireBody
  split <;> rfl

/-- One keyword returns and two leave a loop; more are misread, not misplaced. -/
theorem generateLeave_reads (ctx : Context) {r : Reader} (hpos : 0 < r.length) :
    ∃ r', Reads Problem.OfTokens r r' ∧
      (generateLeave ctx r).2 = r'.reportPlace (Keyword.ret.misplaced? ctx) := by
  unfold generateLeave
  split
  · rename_i hchain
    refine ⟨_, reads_eval ctx.scope r, ?_⟩
    simp only [generateReturn, Keyword.misplaced?, hchain]
    split <;> simp_all [reportPlace]
  · rename_i hchain
    refine ⟨_, reads_rejectTrailing .ret r, ?_⟩
    simp only [generateBreak, Keyword.misplaced?, hchain]
    split <;> simp_all [reportPlace]
  · rename_i h1 h2
    have hread : Reads Problem.OfTokens r (r.report (.repeatedReturn ctx.chain) .first).skipToEnd :=
      reads_report_skipToEnd trivial hpos
    refine ⟨_, hread, ?_⟩
    simp only [Keyword.misplaced?]
    rw [if_neg (fun h => h1 h.1), if_neg (fun h => h2 h.1)]
    rfl

/-- The statement is written with its keyword alone. -/
def Keyword.IsLone (k : Keyword) (chain : Nat) : Prop := k = .orElse ∨ k = .ret ∧ chain = 2

/-- A statement that takes no tokens reports a pixel after its keyword, and its place. -/
theorem generator_lone {k : Keyword} {ctx : Context} (h : k.IsLone ctx.chain) (r : Reader) :
    (k.generator ctx r).2 = (r.rejectTrailing k).reportPlace (k.misplaced? ctx) := by
  rcases h with rfl | ⟨rfl, hchain⟩
  · exact requireBody_eq ..
  · simp only [Keyword.generator, generateLeave, generateBreak, Keyword.misplaced?, hchain]
    split <;> simp_all [reportPlace]

theorem diagnostics_reportPlace_eq_nil {r : Reader} {problem : Option Problem} :
    (r.reportPlace problem).diagnostics = [] ↔ r.diagnostics = [] ∧ problem = none := by
  cases problem <;> simp [reportPlace, report, record]

theorem diagnostics_rejectTrailing_eq_nil {k : Keyword} {r : Reader} :
    (r.rejectTrailing k).diagnostics = [] ↔ r.diagnostics = [] ∧ r.peek = none := by
  unfold rejectTrailing next
  cases r.peek <;> simp [reportIn, record, skipToEnd]

/-- **A statement reads its tokens, and then reports what is wrong with its place.** -/
theorem generator_reads (k : Keyword) (ctx : Context) {r : Reader} (hr : r.index = 1)
    (hlen : 1 ≤ r.length) :
    ∃ r', Reads Problem.OfTokens r r' ∧
      (k.generator ctx r).2 = r'.reportPlace (k.misplaced? ctx) := by
  have heval := reads_eval ctx.scope r
  cases k with
  | declare => exact ⟨_, reads_generateDeclare ctx hlen, rfl⟩
  | call => exact ⟨_, reads_generateCall ctx hlen, rfl⟩
  | print => exact ⟨_, heval, rfl⟩
  | struct => exact ⟨_, reads_generateStruct ctx hlen, rfl⟩
  | blockOpen => exact ⟨_, reads_generateOpen ctx hr, rfl⟩
  | blockClose => exact ⟨_, reads_rejectTrailing .blockClose r, rfl⟩
  | ifThen => exact ⟨_, heval.reportIn_if _ _ .missingCondition trivial hlen, requireBody_eq ..⟩
  | orElse => exact ⟨_, reads_rejectTrailing .orElse r, requireBody_eq ..⟩
  | whileLoop => exact ⟨_, heval, requireBody_eq ..⟩
  | forEach =>
    refine ⟨_, heval.reportIn_if (r.eval ctx.scope).1.isEmpty
      (Keyword.forEach.template.failedAt 1) .missingCollection trivial hlen, ?_⟩
    simp only [Keyword.generator, generateForEach, Keyword.misplaced?]
    split <;> rfl
  | ret => exact generateLeave_reads ctx hlen

/-- The same of a whole statement, the keyword of which is still to be read. -/
theorem generate_reads (k : Keyword) (ctx : Context) {r : Reader} (hr : r.index = 0)
    (hpos : 0 < r.length) :
    ∃ r', Reads Problem.OfTokens r r' ∧
      (k.generate ctx r).2 = r'.reportPlace (k.misplaced? ctx) := by
  obtain ⟨p, hn, -⟩ | hn := next_cases r
  · have hstep : Reads Problem.OfTokens r (r.advance 1) := reads_advance r 1
    have hindex : (r.advance 1).index = 1 := (index_advance (by omega)).trans (by rw [hr])
    obtain ⟨r', hread, heq⟩ := generator_reads k ctx (r := r.advance 1) hindex hpos
    refine ⟨r', hstep.trans hread, ?_⟩
    rw [Keyword.generate, hn, heq]
  · rw [next, peek, hr, List.getElem?_eq_getElem hpos] at hn
    simp at hn

/-- Every diagnostic of a statement is reported at one of its pixels. -/
theorem reads_generate (k : Keyword) (ctx : Context) {r : Reader} (hr : r.index = 0)
    (hpos : 0 < r.length) : Reads (fun _ => True) r (k.generate ctx r).2 := by
  obtain ⟨r', hread, heq⟩ := generate_reads k ctx hr hpos
  have hread' : Reads (fun _ => True) r r' := hread.mono fun _ _ => trivial
  rw [heq]
  cases k.misplaced? ctx with
  | none => exact hread'
  | some problem =>
    refine hread'.trans (reads_report trivial ?_)
    rw [hread'.length_eq]
    exact hpos

/-- The diagnostics of a statement: those of its tokens, and at the end the one of its place. -/
theorem diagnostics_generate (k : Keyword) (ctx : Context) {r : Reader} (hr : r.index = 0)
    (hpos : 0 < r.length) :
    ∃ ds, (∀ d ∈ ds, d.problem.OfTokens) ∧
      (k.generate ctx r).2.diagnostics =
        r.diagnostics ++ ds ++
          (k.misplaced? ctx).toList.map fun problem => r.locate problem .first none := by
  obtain ⟨r', hread, heq⟩ := generate_reads k ctx hr hpos
  obtain ⟨ds, hds, htokens⟩ := hread.located
  obtain ⟨hp, ho, ha, hk⟩ := hread.frame
  refine ⟨ds, fun d hd => (htokens d hd).1, ?_⟩
  rw [heq]
  cases k.misplaced? ctx with
  | none => simp [reportPlace, hds]
  | some problem =>
    simp [reportPlace, report, record, hds, locate, targetPosition, hp, ho, ha, hk]

end PixelLang
