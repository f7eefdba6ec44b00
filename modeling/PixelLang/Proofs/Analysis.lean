import PixelLang.Proofs.Calls

/-!
# What the analysis tells

The shape of an expression is told before it is read, from a look at all remaining pixels. Reading
keeps to it: the expression has that shape, it is empty only where there are no pixels, and all
pixels are read.

* `Reader.lookAhead`: the look at the pixels that a cursor can take, which reads them and goes back.
* `Reader.index_readWith`: an expression is read to the end.
* `readArguments_stops`: arguments are read up to a pixel that can start none. An argument that is
  read never ends them, since it is not empty.
-/

set_option autoImplicit false

namespace PixelLang

namespace Reader

/-! ## Looking ahead -/

/-- Reads the pixels one by one. Each step reads a pixel, so `fuel` need not exceed their number. -/
def readAll : (fuel : Nat) → Reader → List Pixel × Reader
  | 0, r => ([], r)
  | fuel + 1, r =>
    match r.next with
    | (none, r') => ([], r')
    | (some p, r') =>
      let (pixels, r'') := readAll fuel r'
      (p :: pixels, r'')

/-- Reads the remaining pixels, tells the shape of the expression they spell and goes back. -/
def lookAhead (scope : Scope) (r : Reader) : Shape × Reader :=
  let (pixels, r') := r.readAll r.remaining.length
  (shapeOf scope pixels, r'.setIndex r.index)

section
variable {r : Reader}

theorem skipToEnd_of_remaining (h : r.remaining = []) : r.skipToEnd = r := by
  have hlength := r.length_remaining
  rw [h, List.length_nil] at hlength
  have hindex : r.index ≤ r.length := r.index_le
  have hend : r.length = r.index := by omega
  simp only [skipToEnd, hend]

theorem readAll_eq (fuel : Nat) (hfuel : r.remaining.length ≤ fuel) :
    r.readAll fuel = (r.remaining, r.skipToEnd) := by
  induction fuel generalizing r with
  | zero =>
    have hnil : r.remaining = [] := List.length_eq_zero_iff.1 (Nat.le_zero.1 hfuel)
    rw [hnil, skipToEnd_of_remaining hnil, readAll]
  | succ fuel ih =>
    rw [readAll]
    cases hps : r.remaining with
    | nil =>
      rw [next, peek_eq_head?, hps, skipToEnd_of_remaining hps]
      rfl
    | cons p rest =>
      have hrest : (r.advance 1).remaining = rest := by rw [remaining_advance, hps]; rfl
      rw [hps, List.length_cons] at hfuel
      have hread := ih (r := r.advance 1) (by rw [hrest]; omega)
      rw [r.next_cons hps]
      dsimp only
      rw [hread, hrest]
      rfl

/-- Looking ahead tells what the analysis tells, and the reader is as before. -/
theorem lookAhead_eq (scope : Scope) (r : Reader) :
    r.lookAhead scope = (r.analyze scope, r) := by
  have hback : r.skipToEnd.setIndex r.index = r := by
    have hindex : min r.index r.pixels.length = r.index := Nat.min_eq_left r.index_le
    simp only [setIndex, skipToEnd, length, hindex]
  rw [lookAhead, readAll_eq _ (Nat.le_refl _)]
  exact Prod.ext rfl hback

/-! ## Reading to the end -/

theorem index_finish (r : Reader) : r.finish.index = r.length := by
  rw [finish]
  cases hpeek : r.peek with
  | some p => rfl
  | none =>
    have hend := List.getElem?_eq_none_iff.1 hpeek
    exact Nat.le_antisymm r.index_le hend

/-- An expression of any shape is read to the end. -/
theorem index_readWith (scope : Scope) {nested : SliceReader} (hnested : Sound nested)
    (shape : Shape) (r : Reader) : (r.readWith scope nested shape).2.index = r.length := by
  have hread := reads_readShape scope hnested shape r
  rw [← hread.length_eq]
  exact index_finish _

/-- An expression is empty only where there are no pixels. -/
theorem eval_eq_empty_iff (scope : Scope) : (r.eval scope).1 = .empty ↔ r.remaining = [] := by
  have hempty (e : Expression) : e.isEmpty = true ↔ e = .empty := by
    cases e <;> simp [Expression.isEmpty, Expression.shape]
  rw [← hempty, isEmpty_eval, List.isEmpty_iff]

end

end Reader

/-! ## Arguments -/

/-- The spans are the pixels before the rest. -/
theorem flatten_argumentSpans (pixels : List Pixel) :
    (argumentSpans pixels).1.flatten ++ (argumentSpans pixels).2 = pixels := by
  induction pixels using argumentSpans.induct with
  | case1 pixels hstop => simp [argumentSpans_stop hstop]
  | case2 pixels hstep _ _ _ ih =>
    rw [argumentSpans_step hstep, List.flatten_cons, List.append_assoc, ih, List.take_append_drop]

theorem argumentLength_rest (pixels : List Pixel) :
    argumentLength (argumentSpans pixels).2 = 0 := by
  induction pixels using argumentSpans.induct with
  | case1 pixels hstop => rwa [argumentSpans_stop hstop]
  | case2 pixels hstep _ _ _ ih => rwa [argumentSpans_step hstep]

/-- Where no argument can start there is an operator, a dot or a keyword, or nothing. -/
theorem ends_of_argumentLength {pixels : List Pixel} (h : argumentLength pixels = 0) :
    ∀ p ∈ pixels.head?, p.isOperator ∨ p.isDot ∨ p.isKeyword := by
  intro p hp
  obtain ⟨rest, rfl⟩ := List.head?_eq_some_iff.1 hp
  rw [argumentLength] at h
  grind

theorem span_ne_nil {pixels span : List Pixel} (h : span ∈ (argumentSpans pixels).1) :
    span ≠ [] := by
  obtain ⟨rest, -, hpos, rfl⟩ := exists_of_mem_argumentSpans h
  intro hnil
  have hlength := congrArg List.length hnil
  rw [List.length_take, Nat.min_eq_left (Reader.argumentLength_le rest)] at hlength
  exact hpos hlength

namespace Reader

/-- Arguments are read one after the other, each as its pixels are on their own, up to a pixel that
can start no argument. -/
theorem readArguments_stops (scope : Scope) (r : Reader) :
    ∃ (spans : List (List Pixel)) (rest : List Pixel), r.remaining = spans.flatten ++ rest ∧
      (r.readArguments (evalSlice scope sliceDepth) r.remaining.length).1 =
        spans.map (fun span => (evalAlone scope span).1) ∧
      (r.readArguments (evalSlice scope sliceDepth) r.remaining.length).2.remaining = rest ∧
      (∀ span ∈ spans, (evalAlone scope span).1 ≠ .empty) ∧
      ∀ p ∈ rest.head?, p.isOperator ∨ p.isDot ∨ p.isKeyword := by
  have hsame : SameResult (r.readArguments (evalSlice scope sliceDepth) r.remaining.length)
      (r.readArguments (eval scope) r.remaining.length) :=
    Alike.readArguments _ ⟨rfl, rfl⟩ fun _ _ hs _ =>
      hs.evalSlice (shallow scope _) (Nat.le_refl _) (Nat.le_succ _)
  obtain ⟨t, ht, hrest, -⟩ := readArguments_eval scope _ (Nat.le_refl r.remaining.length)
  refine ⟨_, _, (flatten_argumentSpans r.remaining).symm, ?_, ?_, fun span hspan hempty => ?_,
    ends_of_argumentLength (argumentLength_rest _)⟩
  · rw [hsame.value, ht]
  · rw [hsame.reader.remaining, ht, hrest]
  · exact span_ne_nil hspan ((eval_eq_empty_iff scope).1 hempty)

end Reader

/-- **The analysis predicts what is read.** To look ahead leaves the reader as it is. The expression
that is then read has the shape that was told, it is empty only where no pixel remains, and all
pixels are read. So arguments end only at the end, at an operator, at a dot or at a keyword: each
argument that is read is one of them. -/
theorem analysis_predicts (scope : Scope) (r : Reader) :
    r.lookAhead scope = (r.analyze scope, r) ∧
      (r.eval scope).1.shape = r.analyze scope ∧
      ((r.eval scope).1 = .empty ↔ r.remaining = []) ∧
      (r.eval scope).2.index = r.length ∧
      ∃ (spans : List (List Pixel)) (rest : List Pixel), r.remaining = spans.flatten ++ rest ∧
        (r.readArguments (Reader.evalSlice scope sliceDepth) r.remaining.length).1 =
          spans.map (fun span => (Reader.evalAlone scope span).1) ∧
        (r.readArguments (Reader.evalSlice scope sliceDepth) r.remaining.length).2.remaining =
          rest ∧
        (∀ span ∈ spans, (Reader.evalAlone scope span).1 ≠ .empty) ∧
        ∀ p ∈ rest.head?, p.isOperator ∨ p.isDot ∨ p.isKeyword :=
  ⟨Reader.lookAhead_eq scope r, Reader.shape_eval scope r, Reader.eval_eq_empty_iff scope,
    Reader.index_readWith scope (Reader.reads_evalSlice scope sliceDepth) _ r,
    Reader.readArguments_stops scope r⟩

/-! What follows the name of a method: a digit and a boolean, which are arguments, and a dot. -/

def argumentReader : Reader :=
  (Reader.ofPixels (some .call) ((memberName 1 methodPixel).pixels ++
    [⟨.grey 55, 3, 0, .character 55⟩, ⟨⟨0, 0, 2, 255⟩, 4, 0, .boolean true⟩, dotPixel 5])).advance 3

theorem analysis_argumentReader :
    argumentReader.lookAhead methodScope = (.string, argumentReader) ∧
      (argumentReader.eval methodScope).1.shape = .string ∧
      (argumentReader.eval methodScope).1 ≠ .empty ∧
      (argumentReader.eval methodScope).2.index = 6 ∧
      ∃ spans : List (List Pixel), argumentReader.remaining = spans.flatten ++ [dotPixel 5] ∧
        spans.map (fun span => (Reader.evalAlone methodScope span).1) =
          [.number "7", .boolean true] := by
  have hshape : argumentReader.analyze methodScope = .string := by decide +kernel
  obtain ⟨hahead, hread, hempty, hend, spans, rest, hsplit, hvalues, hrest, -⟩ :=
    analysis_predicts methodScope argumentReader
  rw [hshape] at hahead hread
  refine ⟨hahead, hread, fun h => ?_, hend, spans, ?_, ?_⟩
  · exact absurd (hempty.1 h) (List.cons_ne_nil _ _)
  · rw [hsplit, ← hrest]
    rfl
  · rw [← hvalues]
    rfl

end PixelLang
