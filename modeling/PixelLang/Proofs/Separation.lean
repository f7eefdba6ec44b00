import Mathlib.Data.List.Chain
import PixelLang.Proofs.Lines
import PixelLang.Proofs.Spelling

/-!
# How statements are separated

The text of an entry either goes on with the line of the text before or starts a line of its own.

* `Visit.Separated`: what can stand between two texts.
* `Language.lines_succ_of_startsLine`, `Language.lines_succ_of_joined`: how a text changes the lines
  that were written before it. From them follow the shape of the line of an entry
  (`Language.LineTo`) and the place of blank lines (`Text.Spaced`).
* `Language.statements_separated`: the code of a program holds the text of every entry once, in
  order, and the text of an invalid entry fills a line.
-/

set_option autoImplicit false

namespace PixelLang

/-! ## Leads -/

/-- The spaces in front of a line. -/
def spaces (level : Nat) : List Char := List.replicate (4 * level) ' '

theorem toList_indent (level : Nat) : (indent level).toList = spaces level := by
  induction level with
  | zero => rfl
  | succ level ih =>
    rw [indent, List.replicate_succ, String.join_cons, String.toList_append, ← indent, ih, spaces,
      spaces, Nat.mul_succ, Nat.add_comm, List.replicate_add]
    rfl

/-- The keywords whose texts can be joined on one line. -/
def Keyword.Joins (k next : Keyword) : Prop :=
  k = .blockClose ∧ next = .orElse ∨ k = .orElse ∧ next = .ifThen ∨
    k ∈ [.declare, .ifThen, .orElse, .forEach, .whileLoop] ∧ next = .blockOpen

theorem joiner_cases {k next : Keyword} {declares : Bool} {joint : String}
    (h : joiner (some k) next declares = some joint) :
    (joint = "" ∨ joint = " ") ∧ k.Joins next := by
  unfold joiner at h
  split at h
  all_goals simp_all [Keyword.Joins]

namespace Visit

/-- The level of an entry: the number of scopes around it, and one less at the end of a block. -/
def level (v : Visit) : Nat :=
  if v.entry.keyword = .blockClose then v.state.scope.depth - 1 else v.state.scope.depth

theorem level_line (v : Visit) : v.line.level = v.level := by
  show (if v.entry.keyword.traits.closesBlock then _ else _) = _
  unfold level
  cases v.entry.keyword <;> rfl

/-- The text of the entry starts a line. -/
def startsLine (v : Visit) : Bool := (v.state.layout.joiner? v.line).isNone

/-- How the text of an entry is separated from the text before it: by a joiner between two valid
entries, by a line end, or by a blank line, and then by its indentation. -/
inductive Separated (v w : Visit) : Prop
  | joined :
      v.reader.diagnostics = [] → w.reader.diagnostics = [] →
      v.entry.keyword.Joins w.entry.keyword → w.lead = "" ∨ w.lead = " " → Separated v w
  | newLine : w.lead.toList = '\n' :: spaces w.level → Separated v w
  | blankLine :
      v.entry.keyword ∉ [.ifThen, .orElse, .whileLoop, .blockOpen] →
      w.entry.keyword ≠ .blockClose → w.lead.toList = '\n' :: '\n' :: spaces w.level →
      Separated v w

variable {v w : Visit}

theorem text_ne_empty (v : Visit) : v.text ≠ "" := by
  intro h
  obtain ⟨c, hc, -⟩ := v.visible_text
  rw [h] at hc
  exact absurd hc List.not_mem_nil

theorem Then.layout (h : v.Then w) : w.state.layout = v.state.layout.emit v.line := by
  rw [h.state, State.layout_settle]
  rfl

theorem Then.code_ne_empty (h : v.Then w) : w.state.layout.code ≠ "" := by
  rw [h.layout]
  intro hcode
  exact v.text_ne_empty (String.append_eq_empty_iff.1 hcode).2

/-- A text that starts a line comes after a line end and its indentation. -/
theorem lead_of_startsLine (h : v.startsLine = true) :
    v.lead.toList = (v.state.layout.lineBreak v.entry.keyword).toList ++ spaces v.level := by
  have hnone : v.state.layout.joiner? v.line = none := Option.isNone_iff_eq_none.1 h
  have htext : v.line.text.isEmpty = false := by
    show v.text.isEmpty = false
    simpa using v.text_ne_empty
  rw [lead, Layout.lead, hnone, htext, ← toList_indent, ← level_line, ← String.toList_append]
  rfl

/-- After another text, a text that starts a line comes after one line end or two. -/
theorem Then.lineBreak_cases (h : v.Then w) :
    w.state.layout.lineBreak w.entry.keyword = "\n" ∨
      w.state.layout.lineBreak w.entry.keyword = "\n\n" ∧
        v.entry.keyword ∉ [.ifThen, .orElse, .whileLoop, .blockOpen] ∧
        w.entry.keyword ≠ .blockClose := by
  have hcode : w.state.layout.code.isEmpty = false := by simpa using h.code_ne_empty
  unfold Layout.lineBreak
  rw [hcode]
  cases hblank : w.state.layout.wantsBlank w.entry.keyword with
  | false => exact .inl rfl
  | true =>
    refine .inr ⟨rfl, ?_⟩
    have hlast : w.state.layout.last = some v.entry.keyword := by
      rw [h.layout]
      rfl
    simp only [Layout.wantsBlank, hlast, Bool.and_eq_true, Option.any_some] at hblank
    obtain ⟨⟨-, hopens⟩, hcloses⟩ := hblank
    constructor
    · intro hmem
      simp only [List.mem_cons, List.not_mem_nil, or_false] at hmem
      rcases hmem with hk | hk | hk | hk <;> rw [hk] at hopens <;> cases hopens
    · intro hk
      rw [hk] at hcloses
      cases hcloses

/-- What is joined, and to what. -/
theorem Then.joined (h : v.Then w) (hstarts : w.startsLine = false) :
    v.reader.diagnostics = [] ∧ w.reader.diagnostics = [] ∧
      joiner (some v.entry.keyword) w.entry.keyword w.context.declaresFunction = some w.lead := by
  obtain ⟨joint, hjoint⟩ : ∃ joint, w.state.layout.joiner? w.line = some joint := by
    rw [startsLine, Option.isNone_eq_false_iff] at hstarts
    exact Option.isSome_iff_exists.1 hstarts
  have hlead : w.lead = joint := by rw [lead, Layout.lead, hjoint]
  rw [hlead]
  unfold Layout.joiner? at hjoint
  split at hjoint
  · cases hjoint
  · rename_i hvalid
    rw [h.layout] at hvalid
    have hinvalid : w.reader.invalidated = false ∧ v.reader.invalidated = false := by
      simpa [Layout.emit, line, State.entryLine] using hvalid
    rw [w.flagged_reader, v.flagged_reader] at hinvalid
    simp only [Bool.not_eq_false', List.isEmpty_iff] at hinvalid
    refine ⟨hinvalid.2, hinvalid.1, ?_⟩
    rw [← hjoint, ← h.previous]
    rfl

/-- **Texts are separated** in one of three ways. -/
theorem Then.separated (h : v.Then w) : v.Separated w := by
  cases hstarts : w.startsLine with
  | false =>
    obtain ⟨hv, hw, hjoiner⟩ := h.joined hstarts
    obtain ⟨hlead, hjoins⟩ := joiner_cases hjoiner
    exact .joined hv hw hjoins hlead
  | true =>
    have hlead := lead_of_startsLine hstarts
    rcases h.lineBreak_cases with hbreak | ⟨hbreak, hopens, hclose⟩
    · rw [hbreak] at hlead
      exact .newLine hlead
    · rw [hbreak] at hlead
      exact .blankLine hopens hclose hlead

/-- What the entry adds to the code. -/
def written (v : Visit) : List Char := (v.lead ++ v.text).toList

end Visit

/-! ## Lines -/

/-- Lines that are empty or not blank; an empty one stands between two that are not. -/
structure Text.Spaced (lines : List (List Char)) : Prop where
  visible : ∀ line ∈ lines, line = [] ∨ Visible line
  not_consecutive : lines.IsChain fun a b => a ≠ [] ∨ b ≠ []
  head : lines.head? ≠ some []
  last : lines.getLast? ≠ some []

namespace Text.Spaced

variable {lines : List (List Char)} {line : List Char}

theorem singleton (h : Visible line) : Spaced [line] where
  visible a ha := by
    obtain rfl := List.mem_singleton.1 ha
    exact .inr h
  not_consecutive := .singleton _
  head := by simpa using h.ne_nil
  last := by simpa using h.ne_nil

/-- A line that is added comes after one that is not empty. -/
theorem concat (hlines : Spaced lines) (h : Visible line) : Spaced (lines ++ [line]) where
  visible a ha := by
    rcases List.mem_append.1 ha with ha | ha
    · exact hlines.visible a ha
    · obtain rfl := List.mem_singleton.1 ha
      exact .inr h
  not_consecutive := by
    refine List.isChain_append.2 ⟨hlines.not_consecutive, .singleton _, ?_⟩
    intro a _ b hb
    obtain rfl : line = b := by simpa using hb
    exact .inr h.ne_nil
  head := by
    cases lines with
    | nil => simpa using h.ne_nil
    | cons first lines => exact hlines.head
  last := by simpa using h.ne_nil

theorem concat_blank (hlines : Spaced lines) (hne : lines ≠ []) (h : Visible line) :
    Spaced (lines ++ [[], line]) where
  visible a ha := by
    rcases List.mem_append.1 ha with ha | ha
    · exact hlines.visible a ha
    · rcases List.mem_cons.1 ha with rfl | ha
      · exact .inl rfl
      · obtain rfl := List.mem_singleton.1 ha
        exact .inr h
  not_consecutive := by
    have hpair : List.IsChain (fun a b : List Char => a ≠ [] ∨ b ≠ []) [[], line] :=
      List.isChain_pair.2 (.inr h.ne_nil)
    refine List.isChain_append.2 ⟨hlines.not_consecutive, hpair, ?_⟩
    intro a ha b _
    refine .inl fun hnil => hlines.last ?_
    rw [← hnil]
    exact ha
  head := by
    cases lines with
    | nil => exact absurd rfl hne
    | cons first lines => exact hlines.head
  last := by simpa using h.ne_nil

theorem append_last (hlines : Spaced (lines ++ [line])) (added : List Char) :
    Spaced (lines ++ [line ++ added]) := by
  have hvisible : Visible line := by
    refine (hlines.visible line (by simp)).resolve_left fun hnil => hlines.last ?_
    simp [hnil]
  have hchain := List.isChain_append.1 hlines.not_consecutive
  refine ⟨fun a ha => ?_, List.isChain_append.2 ⟨hchain.1, .singleton _, ?_⟩, ?_, ?_⟩
  · rcases List.mem_append.1 ha with ha | ha
    · exact hlines.visible a (List.mem_append_left _ ha)
    · obtain rfl := List.mem_singleton.1 ha
      exact .inr hvisible.append_right
  · intro a _ b hb
    obtain rfl : line ++ added = b := by simpa using hb
    exact .inr hvisible.append_right.ne_nil
  · have hhead := hlines.head
    cases lines with
    | nil => simpa using fun hnil => absurd hnil hvisible.ne_nil
    | cons first lines => exact hhead
  · simpa using fun hnil => absurd hnil hvisible.ne_nil

end Text.Spaced

namespace Language

variable {l : Language} {pixels : List Pixel} {n : Nat} {v w : Visit}

/-- The lines of the code up to the text of an entry. -/
def linesTo (l : Language) (pixels : List Pixel) (n : Nat) : List (List Char) :=
  (((l.visits pixels).take (n + 1)).flatMap Visit.written).splitOn '\n'

theorem lead_visits_zero (hv : (l.visits pixels)[0]? = some v) :
    v.startsLine = true ∧ v.level = 0 ∧ v.lead = "" := by
  have hstate := (state_visits_zero hv).1
  have hlayout : v.state.layout = .empty := by
    rw [hstate]
    exact layout_startState l _
  have hstarts : v.startsLine = true := by
    rw [Visit.startsLine, hlayout]
    simp [Layout.joiner?, Layout.empty]
  have hlevel : v.level = 0 := by
    have hdepth : v.state.scope.depth = 0 := by
      rw [hstate, (startState_spec l _).2.1]
      rfl
    unfold Visit.level
    split <;> omega
  refine ⟨hstarts, hlevel, String.toList_inj.1 ?_⟩
  rw [Visit.lead_of_startsLine hstarts, hlevel, hlayout]
  rfl

theorem linesTo_zero (havoid : l.TargetsAvoid '\n') (hv : (l.visits pixels)[0]? = some v) :
    l.linesTo pixels 0 = [v.text.toList] := by
  have htext : '\n' ∉ v.text.toList :=
    lineBreak_not_mem_text (List.mem_of_getElem? hv) (.head _) havoid
  have htake : (l.visits pixels).take 1 = [v] := by
    rw [List.take_add_one, hv]
    rfl
  rw [linesTo, htake, List.flatMap_singleton, Visit.written, (lead_visits_zero hv).2.2,
    String.empty_append]
  exact List.splitOn_eq_singleton htext

/-- The line up to the text of the entry `n`, which the text of the entry `m` starts. -/
inductive LineTo (l : Language) (pixels : List Pixel) (m : Nat) : Nat → List Char → Prop
  | start {v : Visit} :
      (l.visits pixels)[m]? = some v → v.startsLine = true →
      LineTo l pixels m m (spaces v.level ++ v.text.toList)
  | join {n : Nat} {line : List Char} {w : Visit} :
      LineTo l pixels m n line → (l.visits pixels)[n + 1]? = some w → w.startsLine = false →
      LineTo l pixels m (n + 1) (line ++ w.written)

theorem written_take_succ (hw : (l.visits pixels)[n]? = some w) :
    ((l.visits pixels).take (n + 1)).flatMap Visit.written =
      ((l.visits pixels).take n).flatMap Visit.written ++ w.written := by
  rw [List.take_add_one, hw, List.flatMap_append]
  simp

section
variable (havoid : l.TargetsAvoid '\n')
include havoid

/-- A text that starts a line adds it, after an empty one or not. -/
theorem lines_succ_of_startsLine (hw : (l.visits pixels)[n + 1]? = some w)
    (hstarts : w.startsLine = true) :
    ∃ blank, (blank = [] ∨ blank = [[]]) ∧
      l.linesTo pixels (n + 1) =
        l.linesTo pixels n ++ (blank ++ [spaces w.level ++ w.text.toList]) := by
  obtain ⟨v, -, hthen⟩ := exists_then hw
  have hlast : '\n' ∉ spaces w.level ++ w.text.toList := by
    have htext := lineBreak_not_mem_text (List.mem_of_getElem? hw) (.head _) havoid
    simp [spaces, htext]
  rw [linesTo, linesTo, written_take_succ hw, Visit.written, String.toList_append,
    Visit.lead_of_startsLine hstarts, List.append_assoc]
  rcases hthen.lineBreak_cases with hbreak | ⟨hbreak, -⟩
  · refine ⟨[], .inl rfl, ?_⟩
    rw [hbreak]
    show List.splitOn '\n' (_ ++ '\n' :: (spaces w.level ++ w.text.toList)) = _
    rw [List.splitOn_append_cons_self, List.splitOn_eq_singleton hlast]
    rfl
  · refine ⟨[[]], .inr rfl, ?_⟩
    rw [hbreak]
    show List.splitOn '\n' (_ ++ '\n' :: ([] ++ '\n' :: (spaces w.level ++ w.text.toList))) = _
    rw [List.splitOn_append_cons_self, List.splitOn_append_cons_self,
      List.splitOn_eq_singleton hlast, List.splitOn_nil]

/-- A text that is joined goes on with the last line. -/
theorem lines_succ_of_joined (hw : (l.visits pixels)[n + 1]? = some w)
    (hjoined : w.startsLine = false) {above : List (List Char)} {line : List Char}
    (h : l.linesTo pixels n = above ++ [line]) :
    l.linesTo pixels (n + 1) = above ++ [line ++ w.written] := by
  obtain ⟨v, -, hthen⟩ := exists_then hw
  rw [linesTo, written_take_succ hw]
  refine Text.splitOn_append_of_not_mem h ?_
  rw [Visit.written, String.toList_append, List.mem_append]
  rintro (hmem | hmem)
  · rcases (joiner_cases (hthen.joined hjoined).2.2).1 with hlead | hlead
    · rw [hlead] at hmem
      simp at hmem
    · rw [hlead] at hmem
      simp at hmem
  · exact lineBreak_not_mem_text (List.mem_of_getElem? hw) (.head _) havoid hmem

/-- The line of an entry is the last one when its text is written. -/
theorem exists_lineTo (hv : (l.visits pixels)[n]? = some v) :
    ∃ above m line, l.linesTo pixels n = above ++ [line] ∧ l.LineTo pixels m n line := by
  induction n generalizing v with
  | zero =>
    obtain ⟨hstarts, hlevel, -⟩ := lead_visits_zero hv
    refine ⟨[], 0, _, ?_, .start hv hstarts⟩
    rw [linesTo_zero havoid hv, hlevel]
    rfl
  | succ n ih =>
    cases hstarts : v.startsLine with
    | true =>
      obtain ⟨blank, -, heq⟩ := lines_succ_of_startsLine havoid hv hstarts
      exact ⟨_, n + 1, _, heq.trans (List.append_assoc ..).symm, .start hv hstarts⟩
    | false =>
      obtain ⟨u, hu, -⟩ := exists_then hv
      obtain ⟨above, m, line, hlines, hline⟩ := ih hu
      exact ⟨above, m, _, lines_succ_of_joined havoid hv hstarts hlines, .join hline hv hstarts⟩

/-- **Blank lines** stand between two others. -/
theorem spaced_linesTo (hv : (l.visits pixels)[n]? = some v) :
    Text.Spaced (l.linesTo pixels n) := by
  induction n generalizing v with
  | zero =>
    rw [linesTo_zero havoid hv]
    exact .singleton v.visible_text
  | succ n ih =>
    obtain ⟨u, hu, -⟩ := exists_then hv
    have hspaced := ih hu
    cases hstarts : v.startsLine with
    | true =>
      have hvisible : Text.Visible (spaces v.level ++ v.text.toList) := v.visible_text.append_left
      obtain ⟨blank, rfl | rfl, heq⟩ := lines_succ_of_startsLine havoid hv hstarts
      · rw [heq]
        exact hspaced.concat hvisible
      · rw [heq]
        exact hspaced.concat_blank (List.splitOn_ne_nil _ _) hvisible
    | false =>
      obtain ⟨above, m, line, hlines, -⟩ := exists_lineTo havoid hu
      rw [hlines] at hspaced
      rw [lines_succ_of_joined havoid hv hstarts hlines]
      exact hspaced.append_last _

/-- **What is written later** changes no line but the last one, and starts the lines after it. -/
theorem linesTo_extend {above : List (List Char)} {line : List Char} {last : Nat}
    (h : l.linesTo pixels n = above ++ [line]) (hn : n ≤ last)
    (hlast : last < (l.visits pixels).length) :
    ∃ added below, l.linesTo pixels last = above ++ (line ++ added) :: below ∧
      ∀ later ∈ below, later = [] ∨
        ∃ m u, n < m ∧ m ≤ last ∧ (l.visits pixels)[m]? = some u ∧
          spaces u.level ++ u.text.toList <+: later := by
  induction last, hn using Nat.le_induction with
  | base => exact ⟨[], [], by simpa using h, fun _ hmem => absurd hmem List.not_mem_nil⟩
  | succ last hn ih =>
    obtain ⟨added, below, heq, hbelow⟩ := ih (Nat.lt_of_succ_lt hlast)
    obtain ⟨w, hw⟩ : ∃ w, (l.visits pixels)[last + 1]? = some w :=
      ⟨_, List.getElem?_eq_getElem hlast⟩
    obtain ⟨v, hv, -⟩ := exists_then hw
    have hlater : ∀ later ∈ below, later = [] ∨
        ∃ m u, n < m ∧ m ≤ last + 1 ∧ (l.visits pixels)[m]? = some u ∧
          spaces u.level ++ u.text.toList <+: later := by
      intro later hmem
      refine (hbelow later hmem).imp_right ?_
      rintro ⟨m, u, hm, hle, hu, hstart⟩
      exact ⟨m, u, hm, Nat.le_succ_of_le hle, hu, hstart⟩
    cases hstarts : w.startsLine with
    | true =>
      obtain ⟨blank, hblank, hsucc⟩ := lines_succ_of_startsLine havoid hw hstarts
      refine ⟨added, below ++ (blank ++ [spaces w.level ++ w.text.toList]), ?_, ?_⟩
      · rw [hsucc, heq, List.append_assoc, List.cons_append]
      · intro later hmem
        rcases List.mem_append.1 hmem with hmem | hmem
        · exact hlater later hmem
        rcases List.mem_append.1 hmem with hmem | hmem
        · rcases hblank with rfl | rfl
          · exact absurd hmem List.not_mem_nil
          · exact .inl (List.mem_singleton.1 hmem)
        · obtain rfl := List.mem_singleton.1 hmem
          exact .inr ⟨last + 1, w, by omega, Nat.le_refl _, hw, List.prefix_rfl⟩
    | false =>
      rcases List.eq_nil_or_concat below with rfl | ⟨between, final, rfl⟩
      · refine ⟨added ++ w.written, [], ?_, hlater⟩
        rw [lines_succ_of_joined havoid hw hstarts heq, List.append_assoc]
      · rw [List.concat_eq_append] at heq hlater
        have heq' : l.linesTo pixels last = (above ++ (line ++ added) :: between) ++ [final] := by
          rw [heq]
          simp
        have hfinal : final ≠ [] := by
          intro hnil
          have hspaced := (spaced_linesTo havoid hv).last
          rw [heq', hnil] at hspaced
          exact hspaced List.getLast?_concat
        refine ⟨added, between ++ [final ++ w.written], ?_, fun later hmem => ?_⟩
        · rw [lines_succ_of_joined havoid hw hstarts heq']
          simp
        · rcases List.mem_append.1 hmem with hmem | hmem
          · exact hlater later (List.mem_append_left _ hmem)
          · obtain rfl := List.mem_singleton.1 hmem
            obtain ⟨m, u, hm, hle, hu, hstart⟩ :=
              (hlater final (by simp)).resolve_left hfinal
            exact .inr ⟨m, u, hm, hle, hu, hstart.trans (List.prefix_append _ _)⟩

end

/-! ## The code of a program -/

theorem code_of_visits_ne_nil (h : l.visits pixels ≠ []) :
    (l.evaluatePixels pixels).code =
      String.join ((l.visits pixels).map fun v => v.lead ++ v.text) ++ "\n" := by
  obtain ⟨v, rest, hcons⟩ := List.exists_cons_of_ne_nil h
  have htexts : String.join ((l.visits pixels).map fun v => v.lead ++ v.text) ≠ "" := by
    rw [hcons, List.map_cons, String.join_cons]
    intro hempty
    exact v.text_ne_empty (String.append_eq_empty_iff.1 (String.append_eq_empty_iff.1 hempty).1).2
  rw [code_evaluatePixels]
  dsimp only
  rw [if_neg]
  simpa using htexts

theorem code_eq_empty_iff (l : Language) (pixels : List Pixel) :
    (l.evaluatePixels pixels).code = "" ↔ enqueue (subdivide pixels) = [] := by
  rw [← map_entry_visits l, List.map_eq_nil_iff]
  constructor
  · intro hcode
    by_contra hne
    rw [code_of_visits_ne_nil hne] at hcode
    exact absurd (String.append_eq_empty_iff.1 hcode).2 (by decide)
  · intro hnil
    rw [code_evaluatePixels, hnil]
    rfl

/-- The lines of the code are those up to the last text. -/
theorem lines_code {last : Nat} (hlast : last + 1 = (l.visits pixels).length) :
    Text.lines (l.evaluatePixels pixels).code.toList = l.linesTo pixels last := by
  have hne : l.visits pixels ≠ [] := by
    intro hnil
    simp [hnil] at hlast
  rw [code_of_visits_ne_nil hne, String.toList_append, String.toList_join, linesTo, hlast,
    List.take_length, List.flatMap_map]
  exact Text.lines_concat _

/-- The number of the line on which the text of an entry stands, counted from zero. -/
def lineNumber (l : Language) (pixels : List Pixel) (n : Nat) : Nat :=
  (((l.visits pixels).take (n + 1)).flatMap Visit.written).count '\n'

theorem lineNumber_eq {above : List (List Char)} {line : List Char}
    (h : l.linesTo pixels n = above ++ [line]) : above.length = l.lineNumber pixels n := by
  have hlength := Text.length_splitOn '\n' (((l.visits pixels).take (n + 1)).flatMap Visit.written)
  rw [← linesTo, h, List.length_append, List.length_singleton] at hlength
  exact Nat.succ.inj hlength

/-- **The line of an entry in the code.** It may go on after the text of the entry. -/
theorem exists_line (havoid : l.TargetsAvoid '\n') (hv : (l.visits pixels)[n]? = some v) :
    ∃ above m line added below,
      Text.lines (l.evaluatePixels pixels).code.toList = above ++ (line ++ added) :: below ∧
        l.linesTo pixels n = above ++ [line] ∧ l.LineTo pixels m n line := by
  have hlt := (List.getElem?_eq_some_iff.1 hv).1
  obtain ⟨last, hlast⟩ : ∃ last, last + 1 = (l.visits pixels).length :=
    ⟨_, Nat.sub_add_cancel (Nat.one_le_of_lt hlt)⟩
  obtain ⟨above, m, line, hlines, hline⟩ := exists_lineTo havoid hv
  have hle : n ≤ last := by omega
  obtain ⟨added, below, hcode, -⟩ := linesTo_extend havoid hlines hle (by omega)
  exact ⟨above, m, line, added, below, (lines_code hlast).trans hcode, hlines, hline⟩

theorem LineTo.eq_of_startsLine {m : Nat} {line : List Char} (h : l.LineTo pixels m n line)
    (hv : (l.visits pixels)[n]? = some v) (hstarts : v.startsLine = true) :
    line = spaces v.level ++ v.text.toList := by
  cases h with
  | start hu _ =>
    rw [hv] at hu
    obtain rfl := Option.some.inj hu
    rfl
  | join _ hw hjoined =>
    rw [hv] at hw
    obtain rfl := Option.some.inj hw
    rw [hstarts] at hjoined
    cases hjoined

/-- A text that the next one does not go on with is the end of its line. -/
theorem getElem?_lines (havoid : l.TargetsAvoid '\n') (hv : (l.visits pixels)[n]? = some v)
    (hnext : ∀ w, (l.visits pixels)[n + 1]? = some w → w.startsLine = true)
    {above : List (List Char)} {line : List Char} (h : l.linesTo pixels n = above ++ [line]) :
    (Text.lines (l.evaluatePixels pixels).code.toList)[l.lineNumber pixels n]? = some line := by
  have hnumber := lineNumber_eq h
  have hlt := (List.getElem?_eq_some_iff.1 hv).1
  by_cases hlast : n + 1 = (l.visits pixels).length
  · rw [lines_code hlast, h, ← hnumber]
    simp
  · obtain ⟨w, hw⟩ : ∃ w, (l.visits pixels)[n + 1]? = some w :=
      ⟨_, List.getElem?_eq_getElem (by omega)⟩
    obtain ⟨blank, -, hsucc⟩ := lines_succ_of_startsLine havoid hw (hnext w hw)
    obtain ⟨above', m, line', added, below, hcode, hlines, -⟩ := exists_line havoid hw
    rw [hsucc, ← List.append_assoc] at hlines
    rw [hcode, ← (List.append_inj' hlines rfl).1, h, ← hnumber]
    simp

/-- A text that stands next to an invalid entry is not joined to it. -/
theorem startsLine_of_invalid (hv : (l.visits pixels)[n]? = some v)
    (hinvalid : v.reader.diagnostics ≠ []) : v.startsLine = true := by
  cases n with
  | zero => exact (lead_visits_zero hv).1
  | succ n =>
    obtain ⟨u, -, hthen⟩ := exists_then hv
    by_contra hjoined
    exact hinvalid (hthen.joined (Bool.eq_false_iff.2 hjoined)).2.1

/-- **An invalid entry fills a line.** -/
theorem line_of_invalid (havoid : l.TargetsAvoid '\n') (hv : (l.visits pixels)[n]? = some v)
    (hinvalid : v.reader.diagnostics ≠ []) :
    (Text.lines (l.evaluatePixels pixels).code.toList)[l.lineNumber pixels n]? =
      some (spaces v.level ++ v.entry.keyword.comment.toList) := by
  obtain ⟨above, m, line, hlines, hline⟩ := exists_lineTo havoid hv
  have hnext (w : Visit) (hw : (l.visits pixels)[n + 1]? = some w) : w.startsLine = true := by
    by_contra hjoined
    have hthen : v.Then w := State.then_visits hv hw
    exact hinvalid (hthen.joined (Bool.eq_false_iff.2 hjoined)).1
  rw [getElem?_lines havoid hv hnext hlines,
    hline.eq_of_startsLine hv (startsLine_of_invalid hv hinvalid), v.text_eq_comment_iff.2 hinvalid]

/-- **Every statement is written once, in order.** The code of a program is empty exactly if its
queue is. Otherwise it is one text for each entry, and a line end. A text is the code of the entry
or the comment of an invalid one; it is not empty and holds no line break, as far as the targets of
library functions hold none. The first text starts the code, and each other text is separated from
the one before in one of three ways (`Visit.Separated`): by a joiner between valid entries, by a
line end, or by two. So the comment of an invalid entry fills a line, and a blank line is empty and
stands between two lines that are not (`Text.Spaced`). -/
theorem statements_separated (l : Language) (pixels : List Pixel) (havoid : l.TargetsAvoid '\n') :
    let code := (l.evaluatePixels pixels).code
    let vs := l.visits pixels
    vs.map (·.entry) = enqueue (subdivide pixels) ∧
    (code = "" ↔ enqueue (subdivide pixels) = []) ∧
    (vs ≠ [] → code = String.join (vs.map fun v => v.lead ++ v.text) ++ "\n") ∧
    (∀ v ∈ vs,
      v.text = (if v.reader.diagnostics = [] then v.generated.code
        else "// " ++ v.entry.keyword.key ++ ": invalid statement") ∧
      v.text ≠ "" ∧ ∀ c ∈ Text.lineBreaks, l.TargetsAvoid c → c ∉ v.text.toList) ∧
    (∀ v, vs[0]? = some v → v.lead = "") ∧
    (∀ n v w, vs[n]? = some v → vs[n + 1]? = some w → v.Separated w) ∧
    (∀ n v, vs[n]? = some v → v.reader.diagnostics ≠ [] →
      (Text.lines code.toList)[l.lineNumber pixels n]? =
        some (spaces v.level ++ ("// " ++ v.entry.keyword.key ++ ": invalid statement").toList)) ∧
    Text.Spaced (Text.lines code.toList) := by
  intro code vs
  refine ⟨map_entry_visits l pixels, code_eq_empty_iff l pixels, code_of_visits_ne_nil,
    fun v hv => ⟨v.text_eq, v.text_ne_empty, fun c hc => lineBreak_not_mem_text hv hc⟩,
    fun v hv => (lead_visits_zero hv).2.2, fun n v w hv hw => (State.then_visits hv hw).separated,
    fun n v hv hinvalid => line_of_invalid havoid hv hinvalid, ?_⟩
  rcases List.eq_nil_or_concat vs with hnil | ⟨before, v, hconcat⟩
  · have hempty : code = "" := by
      rw [code_eq_empty_iff, ← map_entry_visits l]
      exact List.map_eq_nil_iff.2 hnil
    rw [hempty]
    exact ⟨by simp [Text.lines, Text.fields], .nil, nofun, nofun⟩
  · have hlength : before.length + 1 = (l.visits pixels).length := by
      show _ = vs.length
      simp [hconcat]
    have hlast : (l.visits pixels)[before.length]? = some v := by
      show vs[before.length]? = some v
      simp [hconcat]
    rw [lines_code hlength]
    exact spaced_linesTo havoid hlast

/-- The standard library without colours. -/
def uncoloured : Language := ⟨.empty, .standard, [.standard]⟩

/-- A struct, and a loop whose block holds an `else` without a body. -/
def loopOverElse : List Entry :=
  [rowEntry .struct 0 [rowPixel .symbol 1] 1, rowEntry .whileLoop 2 [] 1,
    rowEntry .blockOpen 3 [] 1, rowEntry .orElse 4 [] 1, rowEntry .blockClose 5 [] 1]

theorem separated_loopOverElse :
    let pixels := loopOverElse.flatMap (·.partition.pixels)
    let lines := Text.lines (uncoloured.evaluatePixels pixels).code.toList
    uncoloured.TargetsAvoid '\n' ∧ Text.Spaced lines ∧
      ∃ v, (uncoloured.visits pixels)[3]? = some v ∧ v.reader.diagnostics ≠ [] ∧
        lines[uncoloured.lineNumber pixels 3]? =
          some (spaces v.level ++ "// else: invalid statement".toList) := by
  intro pixels lines
  have havoid : uncoloured.TargetsAvoid '\n' := by decide
  obtain ⟨-, -, -, -, -, -, hinvalid, hspaced⟩ := statements_separated uncoloured pixels havoid
  obtain ⟨v, hv, hentry⟩ : ∃ v, (uncoloured.visits pixels)[3]? = some v ∧
      v.entry = rowEntry .orElse 4 [] 1 := by
    refine exists_visit uncoloured (i := 3) ?_
    decide
  have hdiagnostics : v.reader.diagnostics ≠ [] := by
    have hisEmpty : (uncoloured.visits pixels)[3]?.map (·.reader.diagnostics.isEmpty) =
        some false := by
      decide +kernel
    rw [hv] at hisEmpty
    simpa using hisEmpty
  have hline := hinvalid 3 v hv hdiagnostics
  rw [hentry] at hline
  exact ⟨havoid, hspaced, v, hv, hdiagnostics, hline⟩

end Language

end PixelLang
