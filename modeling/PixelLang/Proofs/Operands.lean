import PixelLang.Proofs.Analysis
import PixelLang.Proofs.Numbering
import PixelLang.Proofs.Validity
import PixelLang.Proofs.Wrapping

/-!
# Operands

The operands of a compound expression are read apart from each other. What is read of one is the
expression that its pixels spell on their own, and what is reported on it is what is reported on
them alone, at the same places and with the token numbers of the statement.

* `Reader.evalSlice_slice`: a slice is read as its pixels are on their own.
* `OperatorRow`: pixels as operands with operators between them.
* `eval_operatorRow`: the result of reading such a row, the reader that is left included.
-/

set_option autoImplicit false

namespace PixelLang

/-! ## Slices on their own -/

namespace Likeness

/-- A scope is like itself where only places may differ. -/
theorem anywhere_scopes (scope : Scope) : anywhere.Scopes scope scope := by
  have hbound (entries : List (String × Member)) : List.Forall₂ anywhere.Bound entries entries :=
    List.forall₂_same.2 fun entry _ => ⟨rfl, .refl entry.2⟩
  refine ⟨List.forall₂_same.2 fun frame _ => ⟨?_, rfl, hbound _⟩, hbound _⟩
  cases frame.owner with
  | none => exact .none
  | some owner => exact .some ⟨rfl, trivial⟩

end Likeness

namespace Reader

/-- Two diagnostics of a reader at the same token stand at the same place. -/
theorem Holds.eq_of_token {r : Reader} {d d' : Diagnostic} (hd : r.Holds d) (hd' : r.Holds d')
    (h : Likeness.anywhere.Diagnostics d d') (hproblem : d.problem = d'.problem) : d = d' := by
  obtain ⟨-, i, p, hp, hi, hplace⟩ := hd
  obtain ⟨-, j, q, hq, hj, hplace'⟩ := hd'
  have hij : i = j := by
    have htoken := h.tokenIndex
    omega
  rw [hij, hq] at hp
  rw [← Option.some.inj hp, ← hplace'] at hplace
  obtain ⟨hx, hy⟩ := Prod.mk.inj hplace
  cases d
  cases d'
  exact (Diagnostic.mk.injEq ..).mpr
    ⟨hproblem, hx, hy, h.tokenIndex, h.keyword, h.template⟩

theorem eq_of_tokens {r : Reader} {ds ds' : List Diagnostic}
    (h : List.Forall₂ Likeness.anywhere.Diagnostics ds ds')
    (hproblems : ds.map (·.problem) = ds'.map (·.problem)) (hds : ∀ d ∈ ds, r.Holds d)
    (hds' : ∀ d ∈ ds', r.Holds d) : ds = ds' := by
  induction h with
  | nil => rfl
  | cons hd _ ih =>
    obtain ⟨hproblem, hproblems⟩ := List.cons.inj hproblems
    have hhead := (hds _ (.head _)).eq_of_token (hds' _ (.head _)) hd hproblem
    rw [hhead, ih hproblems (fun d hd => hds d (.tail _ hd)) fun d hd => hds' d (.tail _ hd)]

/-- Fresh readers of the same pixels that differ in their anchors alone report the same: every
report stands at a pixel. -/
theorem evalSlice_reanchor (scope : Scope) (depth : Nat) {s t : Reader}
    (hlike : Likeness.anywhere.Readers s t) (hpixels : s.pixels = t.pixels)
    (hs : s.diagnostics = []) (ht : t.diagnostics = [])
    (hsame : SameResult (evalSlice scope depth s) (evalSlice scope depth t)) :
    (evalSlice scope depth s).2.diagnostics = (evalSlice scope depth t).2.diagnostics := by
  have htokens := (Likeness.Readers.evalSlice (Likeness.anywhere_scopes scope) depth _ _
    hlike).reader.diagnostics
  obtain ⟨ds, hds, hheld⟩ := (reads_evalSlice scope depth s).located
  obtain ⟨ds', hds', hheld'⟩ := (reads_evalSlice scope depth t).located
  have hproblems := hsame.reader.problems
  rw [hs, List.nil_append] at hds
  rw [ht, List.nil_append] at hds'
  rw [problems, problems, hds, hds'] at hproblems
  rw [hds, hds'] at htokens ⊢
  refine eq_of_tokens htokens hproblems (fun d hd => (hheld d hd).2) fun d hd => ?_
  have hheld := (hheld' d hd).2
  rwa [Holds, ← hpixels, ← hlike.origin, ← hlike.keyword] at hheld

/-- A slice is read as its pixels are on their own, in the numbering of its statement. -/
theorem evalSlice_slice (scope : Scope) (r : Reader) {start stop : Nat} (hstart : start ≤ stop)
    (hstop : stop ≤ r.length) :
    (evalSlice scope sliceDepth (r.slice start stop)).1 =
        (evalAlone scope (r.slice start stop).pixels).1 ∧
      (evalSlice scope sliceDepth (r.slice start stop)).2.diagnostics =
        (evalAlone scope (r.slice start stop).pixels).2.diagnostics.map
          (·.renumber (.within r.keyword (r.origin + start))) := by
  let n : Numbering := .within r.keyword (r.origin + start)
  let t : Reader := (ofPixels none (r.slice start stop).pixels).renumber n
  have halike : Alike (r.slice start stop) t := ⟨rfl, rfl⟩
  have hsame := halike.evalSlice (shallow scope _) (Nat.le_refl sliceDepth) (Nat.le_refl sliceDepth)
  have hread : evalSlice scope sliceDepth t =
      renumbered n (evalAlone scope (r.slice start stop).pixels) := evalSlice_renumber scope n _
  have horigin : r.origin + min start (min stop r.length) = 0 + (r.origin + start) := by omega
  have hlike : Likeness.anywhere.Readers (r.slice start stop) t :=
    ⟨List.forall₂_same.2 fun _ _ => rfl, rfl, horigin, trivial, rfl, rfl, .nil⟩
  constructor
  · rw [hsame.value, hread]
    rfl
  · rw [evalSlice_reanchor scope sliceDepth hlike rfl rfl rfl hsame, hread]
    rfl

end Reader

/-! ## Rows of operators -/

/-- An operator and the pixels up to the next one. -/
structure OperatorTerm where
  sign : Pixel
  operator : Operator
  isOperator : sign.operator? = some operator
  operand : List Pixel
  plain : ∀ p ∈ operand, p.isOperator = false

/-- Operands with operators between them. -/
structure OperatorRow where
  first : List Pixel
  plain : ∀ p ∈ first, p.isOperator = false
  terms : List OperatorTerm

namespace OperatorTerm

def pixels (t : OperatorTerm) : List Pixel := t.sign :: t.operand

/-- The operand `segment` at `offset` and those of the terms after it, each with the number of
pixels before it. -/
def operandsFrom : (offset : Nat) → (segment : List Pixel) → List OperatorTerm →
    List (Nat × List Pixel)
  | offset, segment, [] => [(offset, segment)]
  | offset, segment, t :: terms =>
    (offset, segment) :: operandsFrom (offset + segment.length + 1) t.operand terms

/-- The operator and the operand, which is read on its own. -/
def parts (scope : Scope) (t : OperatorTerm) : List CompoundPart :=
  [.operator t.operator, .operand (Reader.evalAlone scope t.operand).1]

/-- The report on the last operator of a reader where no operand follows it: the operator is then
the last pixel. -/
def missing (r : Reader) (terms : List OperatorTerm) : List Diagnostic :=
  match terms.getLast? with
  | none => []
  | some t =>
    if t.operand.isEmpty then
      [⟨.missingOperand t.operator, t.sign.x, t.sign.y, r.origin + (r.length - 1), r.keyword, none⟩]
    else []

/-- The last operator does not depend on the terms before it. -/
theorem missing_append (r : Reader) (before : List OperatorTerm) (t : OperatorTerm)
    (terms : List OperatorTerm) : missing r (before ++ t :: terms) = missing r (t :: terms) := by
  rw [missing, missing, List.getLast?_append_of_ne_nil _ (List.cons_ne_nil t terms)]

end OperatorTerm

namespace OperatorRow

variable (row : OperatorRow)

def pixels : List Pixel := row.first ++ row.terms.flatMap OperatorTerm.pixels

/-- The operands, each with the number of pixels before it. -/
def operands : List (Nat × List Pixel) := OperatorTerm.operandsFrom 0 row.first row.terms

/-- The operands read on their own, with the operators between them. -/
def parts (scope : Scope) : List CompoundPart :=
  .operand (Reader.evalAlone scope row.first).1 :: row.terms.flatMap (OperatorTerm.parts scope)

end OperatorRow

theorem splitOperators_plain {segment : List Pixel} (h : ∀ p ∈ segment, p.isOperator = false)
    (rest : List Pixel) :
    splitOperators (segment ++ rest) =
      (segment ++ (splitOperators rest).1, (splitOperators rest).2) := by
  induction segment with
  | nil => rfl
  | cons p segment ih =>
    have hp : p.operator? = none := by simpa [Pixel.isOperator] using h p (.head _)
    rw [List.cons_append, splitOperators, hp, ih fun q hq => h q (.tail _ hq)]
    rfl

/-- Splitting at the operators finds the row. -/
theorem splitOperators_terms {segment : List Pixel} (h : ∀ p ∈ segment, p.isOperator = false)
    (terms : List OperatorTerm) :
    splitOperators (segment ++ terms.flatMap OperatorTerm.pixels) =
      (segment, terms.map fun t => (t.operator, t.operand)) := by
  induction terms generalizing segment with
  | nil => simpa [splitOperators] using splitOperators_plain h []
  | cons t terms ih =>
    rw [List.flatMap_cons, OperatorTerm.pixels, splitOperators_plain h, List.cons_append,
      splitOperators, t.isOperator, ih t.plain, List.append_nil, List.map_cons]

theorem OperatorRow.exists_pixels (pixels : List Pixel) :
    ∃ row : OperatorRow, row.pixels = pixels := by
  induction pixels with
  | nil => exact ⟨⟨[], fun _ hp => absurd hp List.not_mem_nil, []⟩, rfl⟩
  | cons p rest ih =>
    obtain ⟨row, rfl⟩ := ih
    cases hp : p.operator? with
    | some op =>
      exact ⟨⟨[], fun _ hq => absurd hq List.not_mem_nil,
        ⟨p, op, hp, row.first, row.plain⟩ :: row.terms⟩, rfl⟩
    | none =>
      have hplain : p.isOperator = false := by rw [Pixel.isOperator, hp]; rfl
      exact ⟨⟨p :: row.first, List.forall_mem_cons.2 ⟨hplain, row.plain⟩, row.terms⟩, rfl⟩

/-- A row has as many terms as there are operators. -/
theorem OperatorRow.length_terms (row : OperatorRow) :
    row.terms.length = row.pixels.countP Pixel.isOperator := by
  have hplain {segment : List Pixel} (h : ∀ p ∈ segment, p.isOperator = false) :
      segment.countP Pixel.isOperator = 0 := List.countP_eq_zero.2 fun p hp => by simp [h p hp]
  have hterm (t : OperatorTerm) : t.pixels.countP Pixel.isOperator = 1 := by
    simp [OperatorTerm.pixels, hplain t.plain, Pixel.isOperator, t.isOperator]
  rw [pixels, List.countP_append, hplain row.plain, Nat.zero_add]
  induction row.terms with
  | nil => rfl
  | cons t terms ih => rw [List.flatMap_cons, List.countP_append, hterm, ← ih, List.length_cons,
      Nat.add_comm]

theorem OperatorRow.length_parts (row : OperatorRow) (scope : Scope) :
    (row.parts scope).length = 2 * row.terms.length + 1 := by
  rw [parts, List.length_cons]
  induction row.terms with
  | nil => rfl
  | cons t terms ih =>
    rw [List.flatMap_cons, List.length_append, OperatorTerm.parts, List.length_cons,
      List.length_cons, List.length_nil, List.length_cons]
    omega

/-! ## Reading a row -/

namespace Reader

/-- The reader with more diagnostics. -/
def adding (r : Reader) (ds : List Diagnostic) : Reader :=
  { r with
    invalidated := r.invalidated || !ds.isEmpty
    diagnostics := r.diagnostics ++ ds }

/-- What is reported on an operand: what is reported on its pixels alone, in the numbering of the
statement. -/
def operandReports (scope : Scope) (r : Reader) (operand : Nat × List Pixel) : List Diagnostic :=
  (evalAlone scope operand.2).2.diagnostics.map
    (·.renumber (.within r.keyword (r.origin + r.index + operand.1)))

theorem index_adding (r : Reader) (ds : List Diagnostic) : (r.adding ds).index = r.index := rfl

theorem adding_adding (r : Reader) (ds ds' : List Diagnostic) :
    (r.adding ds).adding ds' = r.adding (ds ++ ds') := by
  cases ds <;> simp [adding]

theorem report_eq_adding (r : Reader) (problem : Problem) (target : Target) :
    r.report problem target = r.adding [r.locate problem target none] := by
  simp [report, record, adding]

theorem absorb_eq_adding (r : Reader) {s : Reader} (h : Flagged s.invalidated s.diagnostics) :
    r.absorb s = r.adding s.diagnostics := by
  rw [absorb, adding, h]

theorem finish_of_remaining {r : Reader} (h : r.remaining = []) : r.finish = r := by
  rw [finish, peek_eq_head?, h]
  rfl

section
variable (scope : Scope) {r : Reader} {offset : Nat} {segment : List Pixel}

theorem readSlice_operand {rest : List Pixel} (h : r.remaining.drop offset = segment ++ rest)
    (hbound : r.index + offset + segment.length ≤ r.length) :
    r.readSlice (evalSlice scope sliceDepth) (r.index + offset)
        (r.index + offset + segment.length) =
      ((evalAlone scope segment).1, r.adding (r.operandReports scope (offset, segment))) := by
  have hpixels : (r.slice (r.index + offset) (r.index + offset + segment.length)).pixels =
      segment := by
    have hremaining := r.remaining_slice offset segment.length
    rwa [h, List.take_left] at hremaining
  obtain ⟨hvalue, hreports⟩ := evalSlice_slice scope r (Nat.le_add_right _ _) hbound
  have hflagged := (reads_evalSlice scope sliceDepth
    (r.slice (r.index + offset) (r.index + offset + segment.length))).flagged rfl
  rw [hpixels] at hvalue hreports
  rw [readSlice, operandReports, Nat.add_assoc r.origin, ← hreports, ← hvalue]
  exact congrArg (Prod.mk _) (r.absorb_eq_adding hflagged)

/-- Reading the operands from `segment` on. The operator of `before` stands before `segment`, which
is its operand. -/
theorem readOperands_terms (before : Option OperatorTerm) {terms : List OperatorTerm}
    (h : r.remaining.drop offset = segment ++ terms.flatMap OperatorTerm.pixels)
    (hbound : r.index + offset ≤ r.length)
    (hbefore : ∀ t ∈ before, t.operand = segment ∧
      r.pixels[r.index + offset - 1]? = some t.sign) :
    r.readOperands (evalSlice scope sliceDepth) (terms.map fun t => (t.operator, t.operand))
        (before.map (·.operator)) (r.index + offset) segment.length =
      (.operand (evalAlone scope segment).1 :: terms.flatMap (OperatorTerm.parts scope),
        r.adding
          ((OperatorTerm.operandsFrom offset segment terms).flatMap (r.operandReports scope) ++
            OperatorTerm.missing r (before.toList ++ terms))) := by
  induction terms generalizing before offset segment r with
  | nil =>
    have hend : r.index + offset + segment.length = r.length := by
      have hlength := congrArg List.length h
      simp [length_remaining] at hlength
      omega
    rw [List.map_nil, readOperands, readSlice_operand scope h (Nat.le_of_eq hend)]
    cases before with
    | none => simp [OperatorTerm.operandsFrom, OperatorTerm.missing]
    | some t =>
      obtain ⟨hoperand, hsign⟩ := hbefore t rfl
      have hempty : (evalAlone scope segment).1.isEmpty = segment.isEmpty := isEmpty_eval scope _
      simp only [Option.map_some, hempty]
      cases segment with
      | cons p rest => simp [OperatorTerm.operandsFrom, OperatorTerm.missing, hoperand]
      | nil =>
        have hlast : r.index + offset = r.length := hend
        have hlocate : (r.adding (r.operandReports scope (offset, []))).locate
            (.missingOperand t.operator) (.index (r.index + offset - 1)) none =
              ⟨.missingOperand t.operator, t.sign.x, t.sign.y, r.origin + (r.length - 1),
                r.keyword, none⟩ := by
          rw [locate]
          simp only [targetPosition, adding, hsign]
          rw [hlast]
        simp only [List.isEmpty_nil, if_true, report_eq_adding, adding_adding, hlocate]
        simp [OperatorTerm.operandsFrom, OperatorTerm.missing, hoperand]
  | cons t terms ih =>
    rw [List.flatMap_cons, OperatorTerm.pixels, List.cons_append] at h
    have hend : r.index + (offset + segment.length + 1) ≤ r.length := by
      have hlength := congrArg List.length h
      simp [length_remaining] at hlength
      omega
    have hdrop : r.remaining.drop (offset + segment.length + 1) =
        t.operand ++ terms.flatMap OperatorTerm.pixels := by
      rw [Nat.add_assoc, ← List.drop_drop, h, List.drop_length_add_append]
      rfl
    have hsign : r.pixels[r.index + (offset + segment.length + 1) - 1]? = some t.sign := by
      have hget : (r.remaining.drop offset)[segment.length]? = some t.sign := by
        rw [h, List.getElem?_append_right (Nat.le_refl _), Nat.sub_self]
        rfl
      rwa [remaining, List.getElem?_drop, List.getElem?_drop] at hget
    have hrest := ih (r := r.adding (r.operandReports scope (offset, segment))) (some t) hdrop hend
      fun t' ht' => by
        obtain rfl := Option.some.inj ht'
        exact ⟨rfl, hsign⟩
    have hstart : r.index + offset + segment.length + 1 =
        r.index + (offset + segment.length + 1) := by omega
    rw [index_adding, Option.map_some] at hrest
    rw [List.map_cons, readOperands, readSlice_operand scope h (by omega)]
    dsimp only
    rw [hstart, hrest, adding_adding, OperatorTerm.missing_append r before.toList,
      List.flatMap_cons, OperatorTerm.operandsFrom, List.flatMap_cons, List.append_assoc]
    rfl

theorem readCompound_operatorRow {row : OperatorRow} (hrow : row.pixels = r.remaining) :
    r.readCompound (evalSlice scope sliceDepth) =
      (.compound (row.parts scope),
        (r.adding (row.operands.flatMap (r.operandReports scope) ++
          OperatorTerm.missing r row.terms)).skipToEnd) := by
  have hsplit : splitOperators r.remaining =
      (row.first, row.terms.map fun t => (t.operator, t.operand)) := by
    rw [← hrow]
    exact splitOperators_terms row.plain row.terms
  have hdrop : r.remaining.drop 0 = row.first ++ row.terms.flatMap OperatorTerm.pixels := hrow.symm
  have hread := readOperands_terms scope none hdrop r.index_le fun t ht =>
    absurd ht (Option.not_mem_none t)
  rw [Nat.add_zero, Option.map_none] at hread
  rw [readCompound, hsplit]
  dsimp only
  rw [hread]
  rfl

/-- Where operators remain, they are read as a row. -/
theorem eval_row {row : OperatorRow} (hrow : row.pixels = r.remaining)
    (h : r.remaining.any Pixel.isOperator) :
    r.eval scope = (.compound (row.parts scope),
      (r.adding (row.operands.flatMap (r.operandReports scope) ++
        OperatorTerm.missing r row.terms)).skipToEnd) := by
  rw [eval, analyze, shapeOf_eq_compound_iff.2 h, evalAs, readWith, readShape,
    readCompound_operatorRow scope hrow]
  exact congrArg (Prod.mk _) (finish_of_remaining (remaining_skipToEnd _))

end

end Reader

/-- **Compound expressions are read operand by operand.** Where operators remain, the remaining
pixels are a row of operands with operators between them, and they are read as a compound of just
these: each operand is what its pixels spell on their own, empty only where there are none. What is
reported is what is reported on the operands alone, in their order and in the numbering of the
statement, and then that the last operator has no right operand, if it has none. All pixels are
read. -/
theorem eval_operatorRow (scope : Scope) {r : Reader} (h : r.remaining.any Pixel.isOperator) :
    (∃ row : OperatorRow, row.pixels = r.remaining) ∧
    ∀ row : OperatorRow, row.pixels = r.remaining →
      row.terms.length = r.remaining.countP Pixel.isOperator ∧
      (row.parts scope).length = 2 * row.terms.length + 1 ∧
      (∀ operand ∈ row.operands, (Reader.evalAlone scope operand.2).1 = .empty ↔ operand.2 = []) ∧
      r.eval scope = (.compound (row.parts scope),
        (r.adding (row.operands.flatMap (r.operandReports scope) ++
          OperatorTerm.missing r row.terms)).skipToEnd) := by
  refine ⟨OperatorRow.exists_pixels r.remaining, fun row hrow => ?_⟩
  exact ⟨hrow ▸ row.length_terms, row.length_parts scope,
    fun operand _ => Reader.eval_eq_empty_iff scope, Reader.eval_row scope hrow h⟩

/-! A sum of a name that is not bound, of nothing, of a name that ends with a dot and of nothing
again, after the keyword of its statement. -/

def signPixel (x : Nat) (op : Operator) : Pixel := ⟨⟨0, 0, 1, 255⟩, x, 0, .operator op⟩

def unboundPixel : Pixel := ⟨⟨0, 0, 255, 255⟩, 1, 0, .symbol⟩

def sumRow : OperatorRow where
  first := [unboundPixel]
  plain := by simp [unboundPixel, Pixel.isOperator, Pixel.operator?]
  terms := [⟨signPixel 2 .plus, .plus, rfl, [], by simp⟩,
    ⟨signPixel 3 .minus, .minus, rfl, [objectPixel, dotPixel 5], by
      simp [objectPixel, dotPixel, Pixel.isOperator, Pixel.operator?, Operator.isDot]⟩,
    ⟨signPixel 6 .times, .times, rfl, [], by simp⟩]

def sumReader : Reader :=
  (Reader.ofPixels (some .print) (⟨.grey 0, 0, 0, .keyword .print⟩ :: sumRow.pixels)).advance 1

theorem eval_sumReader :
    sumReader.remaining.any Pixel.isOperator ∧
      (sumReader.eval methodScope).1 =
        .compound [.operand (.call "_0000FF" none), .operator .plus, .operand .empty,
          .operator .minus, .operand (.call "list" none), .operator .times, .operand .empty] ∧
      (sumReader.eval methodScope).2.diagnostics =
        [⟨.unresolved unboundPixel, 1, 0, 1, some .print, none⟩,
          ⟨.missingMember, 5, 0, 5, some .print, none⟩,
          ⟨.missingOperand .times, 6, 0, 6, some .print, none⟩] := by
  have hoperator : sumReader.remaining.any Pixel.isOperator := by decide
  obtain ⟨-, -, -, heval⟩ := (eval_operatorRow methodScope hoperator).2 sumRow rfl
  rw [heval]
  exact ⟨hoperator, rfl, by decide +kernel⟩

end PixelLang
