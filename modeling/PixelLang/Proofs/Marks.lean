import PixelLang.Proofs.HexForms
import PixelLang.Template

/-!
# Marks under their tokens

A template is shown on two lines. Both are cells with single spaces between them: on the first line
the tokens, on the second the marks, each with blanks up to the width of its token. So a mark stands
in the column where its token starts.

* `Text.column`: where a cell starts. That depends only on the widths of the cells before it, and
  from there on the line is that of the remaining cells (`Text.drop_column`). A place of the line
  lies in a cell or is a space between two (`Text.space_or_cell`).
* `Text.rightpad_trimEnd`: blanks that were trimmed from the end are put back by padding, as long as
  they were spaces.
* `Template.Step`: the tokens are marked, one or several at a time. What a step does to each slot is
  one equation (`Template.slots_step`), and of many steps the last one that marks a token counts
  (`Template.slots_run`).
* `Template.Aligned`: the marks are where their tokens start, and the rest of their line is blank.
* `Template.marks_aligned`: the lines are aligned after any steps.
-/

set_option autoImplicit false

namespace PixelLang

namespace Text

/-! ## Cells with single spaces between them -/

/-- The column at which a cell starts, from the widths of the cells. -/
def column : List Nat → Nat → Nat
  | _, 0 => 0
  | [], _ + 1 => 0
  | width :: widths, i + 1 => width + 1 + column widths i

theorem length_intercalate (cells : List (List Char)) :
    ([' '].intercalate cells).length = column (cells.map List.length) cells.length - 1 := by
  induction cells with
  | nil => rfl
  | cons cell rest ih =>
    cases rest with
    | nil =>
      rw [List.intercalate_singleton]
      rfl
    | cons next others =>
      rw [List.intercalate_cons_cons, List.length_append, List.length_append, ih]
      simp only [List.map_cons, List.length_cons, column, List.length_nil]
      omega

theorem drop_intercalate_cons_cons (cell next : List Char) (rest : List (List Char)) :
    ([' '].intercalate (cell :: next :: rest)).drop (cell.length + 1) =
      [' '].intercalate (next :: rest) := by
  rw [List.intercalate_cons_cons]
  exact List.drop_left' List.length_append

/-- From the column of a cell on, the line is that of the cell and those after it. -/
theorem drop_column {cells : List (List Char)} {i : Nat} (h : i < cells.length) :
    ([' '].intercalate cells).drop (column (cells.map List.length) i) =
      [' '].intercalate (cells.drop i) := by
  induction cells generalizing i with
  | nil => exact absurd h (Nat.not_lt_zero i)
  | cons cell rest ih =>
    cases i with
    | zero => rfl
    | succ i =>
      have hi : i < rest.length := Nat.lt_of_succ_lt_succ h
      obtain ⟨next, others, rfl⟩ := List.exists_cons_of_length_pos (Nat.zero_lt_of_lt hi)
      rw [List.map_cons, column, ← List.drop_drop, drop_intercalate_cons_cons, ih hi,
        List.drop_succ_cons]

theorem getElem?_intercalate_cons {cell : List Char} (rest : List (List Char)) {k : Nat}
    (h : k < cell.length) : ([' '].intercalate (cell :: rest))[k]? = cell[k]? := by
  cases rest with
  | nil => rw [List.intercalate_singleton]
  | cons next others =>
    rw [List.intercalate_cons_cons, List.append_assoc, List.getElem?_append_left h]

theorem getElem?_column_add {cells : List (List Char)} {i k : Nat} {cell : List Char}
    (hcell : cells[i]? = some cell) (hk : k < cell.length) :
    ([' '].intercalate cells)[column (cells.map List.length) i + k]? = cell[k]? := by
  obtain ⟨hi, rfl⟩ := List.getElem?_eq_some_iff.1 hcell
  rw [← List.getElem?_drop, drop_column hi, List.drop_eq_getElem_cons hi,
    getElem?_intercalate_cons _ hk]

/-- A place of the line is a space between two cells, or lies in one of them. -/
theorem space_or_cell {cells : List (List Char)} {c : Nat}
    (h : c < ([' '].intercalate cells).length) :
    ([' '].intercalate cells)[c]? = some ' ' ∨
      ∃ i cell k, cells[i]? = some cell ∧ k < cell.length ∧
        c = column (cells.map List.length) i + k := by
  induction cells generalizing c with
  | nil => exact absurd h (Nat.not_lt_zero c)
  | cons cell rest ih =>
    by_cases hc : c < cell.length
    · exact .inr ⟨0, cell, c, rfl, hc, (Nat.zero_add c).symm⟩
    cases rest with
    | nil =>
      rw [List.intercalate_singleton] at h
      exact absurd h hc
    | cons next others =>
      rcases Nat.eq_or_lt_of_le (Nat.le_of_not_lt hc) with rfl | hlt
      · refine .inl ?_
        rw [List.intercalate_cons_cons, List.append_assoc,
          List.getElem?_append_right (Nat.le_refl _), Nat.sub_self]
        rfl
      · -- past the space, the place is one of the remaining cells
        obtain ⟨n, rfl⟩ := Nat.exists_eq_add_of_le hlt
        have hdrop := drop_intercalate_cons_cons cell next others
        have hn : n < ([' '].intercalate (next :: others)).length := by
          rw [← hdrop, List.length_drop]
          omega
        rcases ih hn with hspace | ⟨i, other, k, hother, hk, rfl⟩
        · refine .inl ?_
          rw [Nat.succ_eq_add_one, ← List.getElem?_drop, hdrop, hspace]
        · exact .inr ⟨i + 1, other, k, hother, hk, (Nat.add_assoc ..).symm⟩

/-! ## Spaces at the end -/

/-- Padding puts back what was trimmed, if that was spaces. -/
theorem rightpad_trimEnd {cs : List Char} (h : ∀ ch ∈ cs, isBlank ch → ch = ' ') :
    (trimEnd cs).rightpad cs.length ' ' = cs := by
  have hcs := trimEnd_append cs
  have hlength := congrArg List.length hcs
  rw [List.length_append] at hlength
  have htail : (cs.reverse.takeWhile isBlank).reverse =
      List.replicate (cs.length - (trimEnd cs).length) ' ' := by
    refine List.eq_replicate_iff.2 ⟨by omega, fun ch hch => h ch ?_ ?_⟩
    · rw [← hcs]
      exact List.mem_append_right _ hch
    · exact List.all_eq_true.1 List.all_takeWhile ch (List.mem_reverse.1 hch)
  rw [List.rightpad, ← htail, hcs]

end Text

theorem Mark.symbol_eq_of_isBlank {m : Mark} (h : Text.isBlank m.symbol) : m.symbol = ' ' := by
  cases m with
  | correct => exact absurd h (by decide)
  | incorrect => exact absurd h (by decide)
  | unchecked => rfl

theorem Keyword.tokens_ne_empty (k : Keyword) : ∀ token ∈ k.tokens, token ≠ "" := by
  cases k <;> decide

namespace Template

/-! ## Marking -/

/-- What can be done to the marks of a template. -/
inductive Step
  | mark (index : Nat) (m : Mark)
  | failedAt (index : Nat)
deriving DecidableEq

def step (t : Template) : Step → Template
  | .mark index m => t.mark index m
  | .failedAt index => t.failedAt index

/-- Does steps one after the other. -/
def run (t : Template) (steps : List Step) : Template := steps.foldl step t

/-- The mark that a step gives to the token with a number, if it touches it. -/
def Step.markOf? : Step → Nat → Option Mark
  | mark index m, i => if i = index then some m else none
  | failedAt index, i =>
    if i < index then some .correct else if i = index then some .incorrect else none

/-- The mark that the last step to touch a token gives it. -/
def lastMark? (steps : List Step) (i : Nat) : Option Mark :=
  (steps.filterMap (·.markOf? i)).getLast?

/-- A step gives each slot its mark or leaves it as it is, and it adds none. -/
theorem slots_step (t : Template) (s : Step) (i : Nat) :
    (t.step s).slots[i]? = t.slots[i]?.map fun slot => (slot.1, (s.markOf? i).getD slot.2) := by
  cases s with
  | mark index m =>
    rw [step, mark, List.getElem?_modify]
    refine congrArg (t.slots[i]?.map ·) (funext fun slot => ?_)
    by_cases hi : i = index
    · rw [if_pos hi.symm, Step.markOf?, if_pos hi, Option.getD_some]
    · rw [if_neg (Ne.symm hi), Step.markOf?, if_neg hi, Option.getD_none]
  | failedAt index =>
    rw [step, failedAt, List.getElem?_mapIdx]
    refine congrArg (t.slots[i]?.map ·) (funext fun slot => ?_)
    rw [Step.markOf?]
    split
    · rfl
    · split <;> rfl

/-- After steps each slot has the mark that it was given last. -/
theorem slots_run (t : Template) (steps : List Step) (i : Nat) :
    (t.run steps).slots[i]? =
      t.slots[i]?.map fun slot => (slot.1, (lastMark? steps i).getD slot.2) := by
  induction steps generalizing t with
  | nil => exact Option.map_id'.symm
  | cons s rest ih =>
    have hrun : (t.run (s :: rest)).slots[i]? = ((t.step s).run rest).slots[i]? := rfl
    rw [hrun, ih, slots_step, Option.map_map]
    refine congrArg (t.slots[i]?.map ·) (funext fun slot => Prod.ext rfl ?_)
    rw [lastMark?, lastMark?, List.filterMap_cons]
    cases s.markOf? i with
    | none => rfl
    | some m => simp only [Function.comp, Option.getD_some, List.getLast?_cons]

theorem slots_run_ofTokens (tokens : List String) (steps : List Step) (i : Nat) :
    ((ofTokens tokens).run steps).slots[i]? =
      tokens[i]?.map fun token => (token, (lastMark? steps i).getD .unchecked) := by
  rw [slots_run, ofTokens, List.getElem?_map, Option.map_map]
  rfl

/-! ## The two lines -/

/-- The column of the line of tokens at which a token starts. -/
def column (t : Template) (i : Nat) : Nat := Text.column (t.slots.map (·.1.length)) i

/-- The line of marks, with spaces up to the length of the line of tokens. -/
def paddedMarks (t : Template) : List Char := t.markLine.toList.rightpad t.tokenLine.length ' '

/-- The marks stand under the first characters of their tokens. -/
structure Aligned (t : Template) : Prop where
  /-- From the column of a token on, the line of tokens is that of the token and those after it. -/
  starts : ∀ i < t.slots.length,
    t.tokenLine.toList.drop (t.column i) = (Template.mk (t.slots.drop i)).tokenLine.toList
  length_eq : t.paddedMarks.length = t.tokenLine.length
  mark : ∀ i token m, t.slots[i]? = some (token, m) →
    t.paddedMarks[t.column i]? = some m.symbol
  blank : ∀ c < t.tokenLine.length, (∀ i < t.slots.length, c ≠ t.column i) →
    t.paddedMarks[c]? = some ' '

theorem toList_tokenLine (t : Template) :
    t.tokenLine.toList = [' '].intercalate (t.slots.map (·.1.toList)) := by
  rw [tokenLine, String.toList_intercalate, List.map_map]
  rfl

theorem widths_tokens (t : Template) :
    (t.slots.map (·.1.toList)).map List.length = t.slots.map (·.1.length) := by
  rw [List.map_map]
  exact List.map_congr_left fun slot _ => String.length_toList

/-- After the mark there is only space in a cell. -/
theorem getElem?_markCell {slot : String × Mark} {k : Nat} (h : k < (markCell slot).length) :
    (markCell slot)[k]? = some (if k = 0 then slot.2.symbol else ' ') := by
  cases k with
  | zero => rfl
  | succ k =>
    rw [markCell, List.length_cons, List.length_replicate] at h
    rw [markCell, List.getElem?_cons_succ, List.getElem?_replicate,
      if_pos (Nat.lt_of_succ_lt_succ h), if_neg (Nat.succ_ne_zero k)]

/-- A place of the line of marks is the start of a cell, with its mark, or there is a space. -/
theorem mark_or_space {t : Template} {c : Nat}
    (hc : c < ([' '].intercalate (t.slots.map markCell)).length) :
    ([' '].intercalate (t.slots.map markCell))[c]? = some ' ' ∨
      ∃ i slot, t.slots[i]? = some slot ∧
        c = Text.column ((t.slots.map markCell).map List.length) i ∧
        ([' '].intercalate (t.slots.map markCell))[c]? = some slot.2.symbol := by
  rcases Text.space_or_cell hc with hspace | ⟨i, cell, k, hcell, hk, rfl⟩
  · exact .inl hspace
  · have hget := Text.getElem?_column_add hcell hk
    rw [List.getElem?_map] at hcell
    obtain ⟨slot, hslot, rfl⟩ := Option.map_eq_some_iff.1 hcell
    rw [getElem?_markCell hk] at hget
    cases k with
    | zero => exact .inr ⟨i, slot, hslot, rfl, hget⟩
    | succ k => exact .inl hget

section

variable {t : Template} (h : ∀ slot ∈ t.slots, slot.1 ≠ "")
include h

/-- The cells of both lines have the same widths. -/
theorem widths_marks : (t.slots.map markCell).map List.length = t.slots.map (·.1.length) := by
  rw [List.map_map]
  refine List.map_congr_left fun slot hslot => ?_
  have hpos : slot.1.length ≠ 0 := fun hzero => h slot hslot (String.length_eq_zero_iff.1 hzero)
  rw [Function.comp, markCell, List.length_cons, List.length_replicate]
  omega

theorem length_marks :
    ([' '].intercalate (t.slots.map markCell)).length = t.tokenLine.length := by
  rw [← String.length_toList, toList_tokenLine, Text.length_intercalate, Text.length_intercalate,
    widths_marks h, widths_tokens, List.length_map, List.length_map]

/-- What is trimmed from the line of marks is put back. -/
theorem paddedMarks_eq : t.paddedMarks = [' '].intercalate (t.slots.map markCell) := by
  rw [paddedMarks, markLine, String.toList_ofList, ← length_marks h]
  refine Text.rightpad_trimEnd fun ch hch hblank => ?_
  obtain ⟨c, hc⟩ := List.getElem?_of_mem hch
  rcases mark_or_space (List.getElem?_eq_some_iff.1 hc).1 with hspace | ⟨i, slot, -, -, hmark⟩
  · exact Option.some.inj (hc.symm.trans hspace)
  · obtain rfl : ch = slot.2.symbol := Option.some.inj (hc.symm.trans hmark)
    exact Mark.symbol_eq_of_isBlank hblank

theorem aligned_of_ne_empty : t.Aligned where
  starts i hi := by
    rw [toList_tokenLine, toList_tokenLine, column, ← widths_tokens,
      Text.drop_column (by rwa [List.length_map]), List.map_drop]
  length_eq := by rw [paddedMarks_eq h, length_marks h]
  mark i token m hslot := by
    have hcell : (t.slots.map markCell)[i]? = some (markCell (token, m)) := by
      rw [List.getElem?_map, hslot]
      rfl
    rw [paddedMarks_eq h, column, ← widths_marks h]
    exact Text.getElem?_column_add hcell (Nat.succ_pos _)
  blank c hc hother := by
    rw [← length_marks h] at hc
    rw [paddedMarks_eq h]
    rcases mark_or_space hc with hspace | ⟨i, slot, hslot, hcolumn, -⟩
    · exact hspace
    · rw [widths_marks h] at hcolumn
      exact absurd hcolumn (hother i (List.getElem?_eq_some_iff.1 hslot).1)

end

/-- **Marks under their tokens.** After any steps on a template of tokens that are not empty, each
token has the mark of the last step that touched it, and there are no other marks. The line of
marks, padded with spaces to the length of the line of tokens, shows each mark in the column where
its token starts, and a space in every other column. -/
theorem marks_aligned (tokens : List String) (h : ∀ token ∈ tokens, token ≠ "")
    (steps : List Step) :
    let t := (ofTokens tokens).run steps
    (∀ i, t.slots[i]? =
        tokens[i]?.map fun token => (token, (lastMark? steps i).getD .unchecked)) ∧
      t.tokenLine = String.intercalate " " tokens ∧ t.Aligned := by
  intro t
  have hslots := slots_run_ofTokens tokens steps
  have htokens : t.slots.map (·.1) = tokens := by
    refine List.ext_getElem? fun i => ?_
    rw [List.getElem?_map, hslots, Option.map_map]
    exact Option.map_id'
  refine ⟨hslots, congrArg (String.intercalate " ") htokens, ?_⟩
  refine aligned_of_ne_empty fun slot hslot => h slot.1 ?_
  rw [← htokens]
  exact List.mem_map_of_mem hslot

/-- A failure past all tokens, a mark that is taken back, one past all tokens, and a failure at the
first token. -/
def remarking : List Step := [.failedAt 7, .mark 1 .unchecked, .mark 9 .incorrect, .failedAt 0]

theorem marks_remarking :
    "<name>" ∈ Keyword.declare.tokens ∧ (∀ token ∈ Keyword.declare.tokens, token ≠ "") ∧
      (Keyword.declare.template.run remarking).slots[3]? = none ∧
      (Keyword.declare.template.run remarking).paddedMarks[0]? = some '✗' ∧
      (Keyword.declare.template.run remarking).paddedMarks[12]? = some ' ' ∧
      (Keyword.declare.template.run remarking).paddedMarks[13]? = some ' ' ∧
      (Keyword.declare.template.run remarking).paddedMarks[20]? = some '✓' := by
  have hne := Keyword.declare.tokens_ne_empty
  obtain ⟨hslots, -, haligned⟩ := marks_aligned Keyword.declare.tokens hne remarking
  refine ⟨by decide, hne, hslots 3, ?_, ?_, ?_, ?_⟩
  · exact haligned.mark 0 _ .incorrect (hslots 0)
  · exact haligned.blank 12 (by decide) (by decide)
  · exact haligned.mark 1 _ .unchecked (hslots 1)
  · exact haligned.mark 2 _ .correct (hslots 2)

end Template

end PixelLang
