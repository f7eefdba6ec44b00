import PixelLang.Proofs.Leading
import PixelLang.Proofs.Separation

/-!
# Indentation

In a program that is not invalidated, the indentation of a line says how many blocks and bodies it
is in.

* `Language.level_eq_of_joined`: texts on one line have the same level.
* `Language.exists_frame_of_close`: the end of a block stands directly in its block, so that its
  level is the one of the block.
* `Language.exists_block_lines`: so the line that opens a block and the line that ends it begin with
  the spaces of one level, and the lines between them with those of a higher one.
* `Language.block_indented`: hence the end of a block is indented like the line that opens the
  block, and what stands between them is indented further, unless the line that opens the block
  begins with a target that begins with a space (`Language.block_misindented`).
-/

set_option autoImplicit false

namespace PixelLang

open Scope (Within)

/-! ## Levels -/

/-- Before the end of a block all temporary frames are left, unless a scope was just opened. -/
theorem exists_settledStack_blockClose {α : Type} (temporary : α → Bool) {k : Keyword}
    (hopens : k.traits.opens = false) (stack : List α) :
    ∃ frames : List α, settledStack temporary (some k) (some .blockClose) stack =
      frames.dropWhile temporary := by
  unfold settledStack
  simp only [hopens]
  cases hclose : k.traits.closesBlock with
  | true => exact ⟨_, rfl⟩
  | false => exact ⟨_, rfl⟩

namespace Visit

variable {v w : Visit}

theorem level_of_ne (h : v.entry.keyword ≠ .blockClose) : v.level = v.state.scope.depth := if_neg h

theorem level_of_close (h : v.entry.keyword = .blockClose) : v.level = v.state.scope.depth - 1 :=
  if_pos h

/-- Between two texts that are joined, and not by the end of a block, no scope is opened or left. -/
theorem Then.depth_eq (h : v.Then w)
    (hjoins : v.entry.keyword = .orElse ∧ w.entry.keyword = .ifThen ∨
      v.entry.keyword ∈ [.declare, .ifThen, .orElse, .forEach, .whileLoop] ∧
        w.entry.keyword = .blockOpen) :
    w.state.scope.depth = v.state.scope.depth := by
  have hnext : v.context.next = some w.entry.keyword := h.next
  have hopening : State.opening? v.context v.entry.keyword = none := by
    rcases hjoins with ⟨hv, hw⟩ | ⟨hv, hw⟩
    · simp [State.opening?, hv, hnext, hw, Keyword.traits, State.takesTemporary]
    · simp only [List.mem_cons, List.not_mem_nil, or_false] at hv
      rcases hv with hv | hv | hv | hv | hv <;>
        simp [State.opening?, hv, hnext, hw, Keyword.traits, State.takesTemporary]
  have hsettle : w.state.scope = v.after.scope := by
    rw [h.state]
    rcases hjoins with ⟨hv, -⟩ | ⟨hv, hw⟩
    · exact State.scope_settle_opens (by rw [hv]; rfl) _
    · simp only [List.mem_cons, List.not_mem_nil, or_false] at hv
      rw [hw]
      rcases hv with hv | hv | hv | hv | hv
      · exact State.scope_settle_bodyFollows (.inr hv)
      · exact State.scope_settle_opens (by rw [hv]; rfl) _
      · exact State.scope_settle_opens (by rw [hv]; rfl) _
      · exact State.scope_settle_bodyFollows (.inl hv)
      · exact State.scope_settle_opens (by rw [hv]; rfl) _
  rw [hsettle, v.depth_after, hopening]
  exact Nat.zero_add _

/-- After the end of a block that stands directly in the block, an `else` is on the level of it. -/
theorem Then.depth_else (h : v.Then w) (hv : v.entry.keyword = .blockClose)
    (hw : w.entry.keyword = .orElse) {frame : Frame} {outer : List Frame}
    (hframes : v.state.scope.frames = frame :: outer) (hframe : frame.temporary = false) :
    w.state.scope.depth = v.state.scope.depth - 1 := by
  have hafter : v.after.scope.outlines = v.state.scope.outlines := by
    rw [v.outlines_after, State.opened, hv]
    rfl
  have houtlines : w.state.scope.outlines = outer.map Frame.outline := by
    rw [h.state, State.outlines_settle, hafter, hv, hw, settledStack_close, Scope.outlines, hframes]
    simp [Frame.outline, hframe]
  have hdepth := congrArg List.length houtlines
  rw [Scope.length_outlines, List.length_map] at hdepth
  rw [hdepth, Scope.depth, hframes]
  rfl

end Visit

namespace Language

variable {l : Language} {pixels : List Pixel} {n : Nat} {u v w : Visit}

section
variable (hvalid : (l.evaluatePixels pixels).invalidated = false)
include hvalid

theorem diagnostics_reader_of_valid (hv : v ∈ l.visits pixels) : v.reader.diagnostics = [] := by
  have hnil := diagnostics_of_valid hvalid
  rw [diagnostics_evaluatePixels, List.append_eq_nil_iff, List.append_eq_nil_iff] at hnil
  exact List.flatMap_eq_nil_iff.1 hnil.1.2 v hv

/-- In a program that is not invalidated every statement is in its place. -/
theorem placed_of_valid (hv : v ∈ l.visits pixels) :
    v.isStray = false ∧ v.entry.keyword.misplaced? v.context = none := by
  obtain ⟨ds, -, hds⟩ := v.diagnostics_reader (keyword_of_mem_visits hv)
  rw [diagnostics_reader_of_valid hvalid hv] at hds
  have hparts := hds.symm
  rw [List.append_eq_nil_iff, List.append_eq_nil_iff] at hparts
  constructor
  · by_contra hstray
    have hstray : v.isStray = true := by simpa using hstray
    simp [hstray] at hparts
  · simpa using hparts.2

/-- **The end of a block** stands directly in the block: no body is left open before it. -/
theorem exists_frame_of_close (hw : (l.visits pixels)[n]? = some w)
    (hclose : w.entry.keyword = .blockClose) :
    ∃ frame outer, w.state.scope.frames = frame :: outer ∧ frame.temporary = false := by
  have hblock : w.state.scope.inBlock = true := by
    have hstray := (placed_of_valid hvalid (List.mem_of_getElem? hw)).1
    simpa [Visit.isStray, State.isStray, hclose, Keyword.traits] using hstray
  cases hframes : w.state.scope.frames with
  | nil => simp [Scope.inBlock, hframes] at hblock
  | cons frame outer =>
    refine ⟨frame, outer, rfl, ?_⟩
    cases n with
    | zero =>
      rw [(state_visits_zero hw).1, (startState_spec l _).2.1] at hframes
      cases hframes
    | succ n =>
      obtain ⟨v, hv, hthen⟩ := exists_then hw
      by_cases hopen : v.entry.keyword = .blockOpen
      · have houtlines : w.state.scope.outlines = v.after.scope.outlines := by
          rw [hthen.state, State.scope_settle_opens (by rw [hopen]; rfl)]
        rw [v.outlines_after, State.opened, hopen, Scope.outlines, hframes] at houtlines
        exact congrArg Outline.temporary (List.cons.inj houtlines).1
      · have hopens : v.entry.keyword.traits.opens = false := by
          -- a head of a body would be reported
          have hplaced := (placed_of_valid hvalid (List.mem_of_getElem? hv)).2
          have hnext : v.context.next = some .blockClose := hclose ▸ hthen.next
          cases hk : v.entry.keyword with
          | blockOpen => exact absurd hk hopen
          | ifThen | orElse | whileLoop => simp [hk, hnext, Keyword.misplaced?] at hplaced
          | _ => rfl
        obtain ⟨frames, hsettled⟩ :=
          exists_settledStack_blockClose (·.temporary) hopens v.after.scope.frames
        have hdrop : w.state.scope.frames = frames.dropWhile (·.temporary) := by
          rw [hthen.state, State.scope_settle, hclose]
          exact hsettled
        have hhead := List.head?_dropWhile_not (·.temporary) frames
        rw [← hdrop, hframes] at hhead
        simpa using hhead

/-- **Texts on one line have the same level.** -/
theorem level_eq_of_joined (hv : (l.visits pixels)[n]? = some v)
    (hw : (l.visits pixels)[n + 1]? = some w) (hjoined : w.startsLine = false) :
    w.level = v.level := by
  have hthen : v.Then w := State.then_visits hv hw
  obtain ⟨-, -, hjoiner⟩ := hthen.joined hjoined
  rcases (joiner_cases hjoiner).2 with ⟨hclose, helse⟩ | hjoins
  · obtain ⟨frame, outer, hframes, hframe⟩ := exists_frame_of_close hvalid hv hclose
    rw [Visit.level_of_close hclose, Visit.level_of_ne (by simp [helse])]
    exact hthen.depth_else hclose helse hframes hframe
  · have hdepth := hthen.depth_eq hjoins
    rw [Visit.level_of_ne, Visit.level_of_ne, hdepth]
    · rcases hjoins with ⟨hk, -⟩ | ⟨hk, -⟩
      · simp [hk]
      · intro hclose
        simp [hclose] at hk
    · rcases hjoins with ⟨-, hk⟩ | ⟨-, hk⟩
      · simp [hk]
      · simp [hk]

/-- The line of an entry has the level of the entry, and holds its text. -/
theorem LineTo.exists_eq {m : Nat} {line : List Char} (h : l.LineTo pixels m n line)
    (hv : (l.visits pixels)[n]? = some v) :
    ∃ u rest, (l.visits pixels)[m]? = some u ∧
      line = spaces v.level ++ (u.text.toList ++ rest) ∧
      v.text.toList <:+ u.text.toList ++ rest := by
  induction h generalizing v with
  | start hu _ =>
    rw [hv] at hu
    obtain rfl := Option.some.inj hu
    exact ⟨v, [], hv, by simp, by simp⟩
  | @join n line w _ hw hjoined ih =>
    rw [hv] at hw
    obtain rfl := Option.some.inj hw
    obtain ⟨u', hu', -⟩ := exists_then hv
    obtain ⟨u, rest, hu, rfl, -⟩ := ih hu'
    refine ⟨u, rest ++ v.written, hu, ?_, ?_⟩
    · rw [level_eq_of_joined hvalid hu' hv hjoined]
      simp
    · rw [Visit.written, String.toList_append, ← List.append_assoc, ← List.append_assoc]
      exact List.suffix_append _ _

end

end Language

/-! ## Inside a block -/

theorem Scope.Within.depth_le {base s : Scope} {n : Nat} (h : Within base n s) :
    base.depth + 1 + n ≤ s.depth := by
  obtain ⟨inner, block, rfl, -, rfl⟩ := h
  have hcount := inner.countP_le_length (p := (!·.temporary))
  simp only [Scope.depth, List.length_append, List.length_cons]
  omega

/-- Directly in the block there is only the frame of the block over the scope around it. -/
theorem Scope.Within.depth_eq {base s : Scope} (h : Within base 0 s) {frame : Frame}
    {outer : List Frame} (hframes : s.frames = frame :: outer) (hframe : frame.temporary = false) :
    s.depth = base.depth + 1 := by
  obtain ⟨inner, block, rfl, -, hcount⟩ := h
  cases inner with
  | nil => rfl
  | cons first inner =>
    obtain ⟨rfl, -⟩ := List.cons.inj hframes
    simp [hframe] at hcount

namespace Language

variable {l : Language} {pixels : List Pixel} {i j : Nat} {u v w : Visit}

/-- What lies between a block and its end is on a higher level than the block. -/
theorem depth_lt_level {before inner rest : List Entry} {opener closer : Entry} {t : Nat}
    (hqueue : enqueue (subdivide pixels) = before ++ opener :: (inner ++ closer :: rest))
    (hopen : opener.keyword = .blockOpen)
    (hinner : openAfter 0 (inner.map Entry.keyword) = some 0)
    (hv : (l.visits pixels)[before.length]? = some v) (ht : t < inner.length)
    (hu : (l.visits pixels)[before.length + t + 1]? = some u) :
    v.state.scope.depth < u.level := by
  obtain ⟨n, hwithin, hrest⟩ :=
    exists_within_openAfter hqueue hopen hinner hv (Nat.le_of_lt ht) hu
  have hdepth := hwithin.depth_le
  rw [v.depth_bound] at hdepth
  by_cases hclose : u.entry.keyword = .blockClose
  · -- the block that is closed here was opened inside
    have hentry : inner[t]? = some u.entry := by
      have hget := entry_of_visits hu
      rw [hqueue, List.getElem?_append_right (by omega)] at hget
      rw [show before.length + t + 1 - before.length = t + 1 by omega, List.getElem?_cons_succ,
        List.getElem?_append_left ht] at hget
      exact hget
    obtain ⟨_, hget⟩ := List.getElem?_eq_some_iff.1 hentry
    rw [List.drop_eq_getElem_cons ht, hget, List.map_cons, hclose] at hrest
    cases n with
    | zero => cases hrest
    | succ n =>
      rw [Visit.level_of_close hclose]
      omega
  · rw [Visit.level_of_ne hclose]
    omega

/-- The spaces at the front of a line. -/
def indentation (line : List Char) : Nat := (line.takeWhile (· == ' ')).length

theorem indentation_spaces {line : List Char} (h : line.head? ≠ some ' ') (level : Nat) :
    indentation (spaces level ++ line) = 4 * level := by
  have hline : line.takeWhile (· == ' ') = [] := by
    cases line with
    | nil => rfl
    | cons c line =>
      have hc : c ≠ ' ' := by simpa using h
      simp [hc]
  rw [indentation, spaces, List.takeWhile_append_of_pos (by simp), hline]
  simp

theorem le_indentation {level : Nat} {line : List Char} (h : spaces level <+: line) :
    4 * level ≤ indentation line := by
  obtain ⟨rest, rfl⟩ := h
  rw [indentation, spaces, List.takeWhile_append_of_pos (by simp), List.length_append]
  simp

theorem spaces_prefix_of_le {m n : Nat} (h : m ≤ n) : spaces m <+: spaces n := by
  obtain ⟨k, rfl⟩ := Nat.exists_eq_add_of_le h
  rw [spaces, spaces, Nat.mul_add, List.replicate_add]
  exact List.prefix_append _ _

theorem text_of_close (hvalid : (l.evaluatePixels pixels).invalidated = false)
    (hw : w ∈ l.visits pixels) (hclose : w.entry.keyword = .blockClose) : w.text = "\x7d" := by
  rw [w.text_eq, if_pos (diagnostics_reader_of_valid hvalid hw), Visit.generated, hclose]
  rfl

/-- The end of a block starts a line. -/
theorem startsLine_of_close (hw : (l.visits pixels)[j]? = some w)
    (hclose : w.entry.keyword = .blockClose) : w.startsLine = true := by
  cases j with
  | zero => exact (lead_visits_zero hw).1
  | succ j =>
    obtain ⟨v, -, hthen⟩ := exists_then hw
    by_contra hjoined
    have hjoins := (joiner_cases (hthen.joined (Bool.eq_false_iff.2 hjoined)).2.2).2
    simp [Keyword.Joins, hclose] at hjoins

/-- The lines of a block. The line that opens it begins with the text of an entry `u`, and the line
that ends it with a brace, after the spaces of one level; the lines between them have a higher
level. -/
theorem exists_block_lines (havoid : l.TargetsAvoid '\n')
    (hvalid : (l.evaluatePixels pixels).invalidated = false)
    (hv : (l.visits pixels)[i]? = some v) (hw : (l.visits pixels)[j]? = some w)
    (hclose : w.entry.keyword = .blockClose)
    (hmatch : (openNumbers (enqueue (subdivide pixels)) j).head? = some i) :
    ∃ above u tail inside rest below,
      Text.lines (l.evaluatePixels pixels).code.toList =
        above ++ (spaces v.level ++ (u.text.toList ++ tail)) ::
          (inside ++ (spaces v.level ++ '\x7d' :: rest) :: below) ∧
      u ∈ l.visits pixels ∧
      above.length = l.lineNumber pixels i ∧
      above.length + 1 + inside.length = l.lineNumber pixels j ∧
      v.text.toList <:+: u.text.toList ++ tail ∧
      ∀ line ∈ inside, line = [] ∨ spaces (v.level + 1) <+: line := by
  obtain ⟨before, opener, inner, rest, hqueue, rfl, hj, hopen, hinner⟩ :=
    exists_of_openNumbers (entry_of_visits hw) hmatch
  have hlevel : v.level = v.state.scope.depth := by
    have hentry := entry_of_visits hv
    rw [hqueue, List.getElem?_append_right (Nat.le_refl _), Nat.sub_self] at hentry
    obtain rfl : opener = v.entry := Option.some.inj hentry
    exact Visit.level_of_ne (by simp [hopen])
  have hend : w.level = v.level := by
    have hwithin := within_visits hqueue hopen hinner hv (hj ▸ hw)
    obtain ⟨frame, outer, hframes, hframe⟩ := exists_frame_of_close hvalid hw hclose
    rw [Visit.level_of_close hclose, hwithin.depth_eq hframes hframe, v.depth_bound, hlevel]
    rfl
  obtain rfl : before.length + inner.length + 1 = j := by
    rw [← hj, List.length_append, List.length_cons]
    rfl
  -- the lines up to the opening, up to the entry before the end, and up to the end
  obtain ⟨above, m, line, hopening, hline⟩ := exists_lineTo havoid hv
  obtain ⟨u, tail, hu, rfl, hsuffix⟩ := hline.exists_eq hvalid hv
  have hlast := (List.getElem?_eq_some_iff.1 hw).1
  obtain ⟨added, inside, hinside, hlater⟩ :=
    linesTo_extend havoid hopening (Nat.le_add_right _ inner.length) (Nat.lt_of_succ_lt hlast)
  obtain ⟨blank, hblank, hclosing⟩ :=
    lines_succ_of_startsLine havoid hw (startsLine_of_close hw hclose)
  obtain ⟨above', m', line', more, below, hcode, hlines, -⟩ := exists_line havoid hw
  rw [hinside, ← List.append_assoc] at hclosing
  obtain ⟨rfl, hbrace⟩ := List.append_inj' (hlines.symm.trans hclosing) rfl
  rw [hend, text_of_close hvalid (List.mem_of_getElem? hw) hclose] at hbrace
  obtain rfl := (List.cons.inj hbrace).1
  refine ⟨above, u, tail ++ added, inside ++ blank, more, below, ?_, List.mem_of_getElem? hu,
    lineNumber_eq hopening, ?_, ?_, fun line hmem => ?_⟩
  · rw [hcode]
    simp
  · rw [← lineNumber_eq hlines]
    simp
    omega
  · rw [← List.append_assoc]
    exact hsuffix.isInfix.trans (List.prefix_append _ _).isInfix
  · rcases List.mem_append.1 hmem with hmem | hmem
    · refine (hlater line hmem).imp_right ?_
      rintro ⟨m, u, hm, hle, hu, hstart⟩
      obtain ⟨t, rfl⟩ := Nat.exists_eq_add_of_lt hm
      have hlt := depth_lt_level hqueue hopen hinner hv (t := t) (by omega) hu
      rw [hlevel]
      exact (spaces_prefix_of_le hlt).trans ((List.prefix_append _ _).trans hstart)
    · rcases hblank with rfl | rfl
      · exact absurd hmem List.not_mem_nil
      · exact .inl (List.mem_singleton.1 hmem)

/-- **Indentation mirrors blocks.** Let a program be not invalidated, no target of a library
function hold a line feed or begin with a space, and the entry `w` end the block that the entry `v`
opens. Then the lines of the code are lines above, the line that the text of `v` is part of, lines
inside, the line that the end of the block starts, and lines below. The two lines have the same
indentation, and every line inside is empty or indented by at least four spaces more. -/
theorem block_indented (l : Language) (pixels : List Pixel) (havoid : l.TargetsAvoid '\n')
    (hflush : l.TargetsFlush) (hvalid : (l.evaluatePixels pixels).invalidated = false) {i j : Nat}
    {v w : Visit} (hv : (l.visits pixels)[i]? = some v) (hw : (l.visits pixels)[j]? = some w)
    (hclose : w.entry.keyword = .blockClose)
    (hmatch : (openNumbers (enqueue (subdivide pixels)) j).head? = some i) :
    ∃ above opening inside closing below,
      Text.lines (l.evaluatePixels pixels).code.toList =
        above ++ opening :: (inside ++ closing :: below) ∧
      above.length = l.lineNumber pixels i ∧
      above.length + 1 + inside.length = l.lineNumber pixels j ∧
      v.text.toList <:+: opening ∧
      (closing.drop (indentation closing)).head? = some '\x7d' ∧
      indentation closing = indentation opening ∧
      ∀ line ∈ inside, line = [] ∨ indentation opening + 4 ≤ indentation line := by
  obtain ⟨above, u, tail, inside, rest, below, hlines, hu, habove, hinside, htext, hdeeper⟩ :=
    exists_block_lines havoid hvalid hv hw hclose hmatch
  have hopening : indentation (spaces v.level ++ (u.text.toList ++ tail)) = 4 * v.level := by
    refine indentation_spaces ?_ v.level
    rw [List.head?_append_of_ne_nil _ u.visible_text.ne_nil]
    exact flush_text hu hflush
  have hclosing : indentation (spaces v.level ++ '\x7d' :: rest) = 4 * v.level :=
    indentation_spaces (by simp) v.level
  refine ⟨above, _, inside, _, below, hlines, habove, hinside,
    htext.trans (List.suffix_append _ _).isInfix, ?_, hclosing.trans hopening.symm,
    fun line hline => (hdeeper line hline).imp_right fun hstart => ?_⟩
  · rw [hclosing, List.drop_left' (by simp [spaces])]
    rfl
  · have hle := le_indentation hstart
    omega

theorem indented_functionOfBlocks :
    let pixels := functionOfBlocks.flatMap (·.partition.pixels)
    uncoloured.TargetsAvoid '\n' ∧ uncoloured.TargetsFlush ∧
      (uncoloured.evaluatePixels pixels).invalidated = false ∧
      (openNumbers (enqueue (subdivide pixels)) 5).head? = some 3 ∧
      ∃ above opening inside closing below,
        Text.lines (uncoloured.evaluatePixels pixels).code.toList =
          above ++ opening :: (inside ++ closing :: below) ∧
        above.length = uncoloured.lineNumber pixels 3 ∧
        above.length + 1 + inside.length = uncoloured.lineNumber pixels 5 ∧
        (closing.drop (indentation closing)).head? = some '\x7d' ∧
        indentation closing = indentation opening ∧
        ∀ line ∈ inside, line = [] ∨ indentation opening + 4 ≤ indentation line := by
  intro pixels
  have havoid : uncoloured.TargetsAvoid '\n' := by decide
  have hflush : uncoloured.TargetsFlush := by decide
  have hvalid : (uncoloured.evaluatePixels pixels).invalidated = false := by decide +kernel
  have hqueue : enqueue (subdivide pixels) = functionOfBlocks := by decide
  have hmatch : (openNumbers (enqueue (subdivide pixels)) 5).head? = some 3 := by
    rw [hqueue]
    decide
  obtain ⟨v, hv, -⟩ := exists_visit uncoloured (i := 3) (by rw [hqueue]; rfl)
  obtain ⟨w, hw, hentry⟩ := exists_visit uncoloured (i := 5) (by rw [hqueue]; rfl)
  obtain ⟨above, opening, inside, closing, below, hlines, hopening, hclosing, -, hrest⟩ :=
    block_indented uncoloured pixels havoid hflush hvalid hv hw (by rw [hentry]; rfl) hmatch
  exact ⟨havoid, hflush, hvalid, hmatch, above, opening, inside, closing, below, hlines, hopening,
    hclosing, hrest⟩

/-- A library function whose target begins with a space. -/
def spacedTarget : Language where
  scheme := Scheme.empty.set "lists.list" (.ofColours [.grey 7])
  catalog := .standard
  libraries := [⟨"lists", "lists", [⟨"list", " list", [.arity 0]⟩], .empty⟩]

/-- A loop over what the function returns. -/
def spacedLoop : List Entry :=
  [rowEntry .forEach 0 [{ rowPixel (.library "lists.list") 1 with colour := .grey 7 }] 1,
    rowEntry .blockOpen 2 [] 1, rowEntry .print 3 [] 1, rowEntry .blockClose 4 [] 1]

/-- The line that opens the block begins with the target, so that the end of the block is not
indented like it, and the line inside is indented by three spaces more. -/
theorem block_misindented :
    let pixels := spacedLoop.flatMap (·.partition.pixels)
    let lines := Text.lines (spacedTarget.evaluatePixels pixels).code.toList
    spacedTarget.TargetsAvoid '\n' ∧ (spacedTarget.evaluatePixels pixels).invalidated = false ∧
      (openNumbers (enqueue (subdivide pixels)) 3).head? = some 1 ∧
      lines[spacedTarget.lineNumber pixels 1]?.map indentation = some 1 ∧
      lines[spacedTarget.lineNumber pixels 2]?.map indentation = some 4 ∧
      lines[spacedTarget.lineNumber pixels 3]?.map indentation = some 0 := by
  intro pixels lines
  have hqueue : enqueue (subdivide pixels) = spacedLoop := by decide
  refine ⟨by decide, by decide +kernel, ?_, by decide +kernel, by decide +kernel,
    by decide +kernel⟩
  rw [hqueue]
  decide

end Language

end PixelLang
