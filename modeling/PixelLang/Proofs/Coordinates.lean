import PixelLang.Language

/-!
# The places of an image

The cells of an image are one list, and the place `(x, y)` has the number `y * width + x` in it.
Both ways, from a place to its number and back, are computed with 32-bit words.

* `Image.Sized`: there is a cell for each place of the rectangle, and no number of a cell wraps
  around. Then a place is the remainder and the quotient of its number (`Sized.index_mod`,
  `Sized.index_div`), so that one write changes one place (`Sized.get?_set`).
* `Image.sized_ofRows`: rows of which the longest times their count is a word make such an image,
  and writes keep it (`Sized.write`).
* `Image.Shows`: what is seen of rows on which colours were written.
* `Language.pixels_of_rows`: the places are kept on the way from rows to pixels.
-/

set_option autoImplicit false

namespace PixelLang

namespace Image

/-! ## Places and numbers -/

theorem contains_iff {img : Image} {x y : Nat} :
    img.contains x y ↔ x < img.width ∧ y < img.height := by
  simp [contains]

theorem word_of_lt {n : Nat} (h : n < UInt32.size) : word n = n := Nat.mod_eq_of_lt h

/-- The number of a place of a rectangle is below the number of all places. -/
theorem mul_add_lt {x y width height : Nat} (hx : x < width) (hy : y < height) :
    y * width + x < width * height :=
  calc y * width + x
      < y * width + width := Nat.add_lt_add_left hx _
    _ = (y + 1) * width := (Nat.succ_mul y width).symm
    _ ≤ height * width := Nat.mul_le_mul_right width hy
    _ = width * height := Nat.mul_comm ..

/-- The image has a cell for each place, and their number is a word. -/
structure Sized (img : Image) : Prop where
  length_cells : img.cells.length = img.width * img.height
  fits : img.width * img.height < UInt32.size

namespace Sized

variable {img : Image} {x y : Nat}

theorem index_eq (h : img.Sized) (hp : img.contains x y) : img.index x y = y * img.width + x := by
  obtain ⟨hx, hy⟩ := contains_iff.1 hp
  exact word_of_lt (Nat.lt_trans (mul_add_lt hx hy) h.fits)

theorem index_lt (h : img.Sized) (hp : img.contains x y) : img.index x y < img.cells.length := by
  obtain ⟨hx, hy⟩ := contains_iff.1 hp
  rw [h.index_eq hp, h.length_cells]
  exact mul_add_lt hx hy

theorem index_mod (h : img.Sized) (hp : img.contains x y) : img.index x y % img.width = x := by
  rw [h.index_eq hp, Nat.mul_add_mod_self_right, Nat.mod_eq_of_lt (contains_iff.1 hp).1]

theorem index_div (h : img.Sized) (hp : img.contains x y) : img.index x y / img.width = y := by
  have hx := (contains_iff.1 hp).1
  rw [h.index_eq hp, Nat.mul_comm, Nat.mul_add_div (Nat.zero_lt_of_lt hx), Nat.div_eq_of_lt hx,
    Nat.add_zero]

theorem index_inj (h : img.Sized) {x' y' : Nat} (hp : img.contains x y)
    (hp' : img.contains x' y') : img.index x y = img.index x' y' ↔ x = x' ∧ y = y' := by
  refine ⟨fun heq => ⟨?_, ?_⟩, fun heq => by rw [heq.1, heq.2]⟩
  · rw [← h.index_mod hp, heq, h.index_mod hp']
  · rw [← h.index_div hp, heq, h.index_div hp']

/-- The number of a cell is the number of a place. -/
theorem exists_place (h : img.Sized) {i : Nat} (hi : i < img.cells.length) :
    0 < img.width ∧ img.contains (i % img.width) (i / img.width) ∧
      img.index (i % img.width) (i / img.width) = i := by
  rw [h.length_cells] at hi
  have hpos : 0 < img.width := Nat.pos_of_mul_pos_right (Nat.zero_lt_of_lt hi)
  have hp : img.contains (i % img.width) (i / img.width) :=
    contains_iff.2 ⟨Nat.mod_lt _ hpos, Nat.div_lt_of_lt_mul hi⟩
  refine ⟨hpos, hp, ?_⟩
  rw [h.index_eq hp, Nat.mul_comm, Nat.div_add_mod]

/-! ## Writing -/

theorem set (h : img.Sized) (x y : Nat) (c : Colour) : (img.set x y c).Sized := by
  unfold Image.set
  split
  · exact ⟨by rw [List.length_set, h.length_cells], h.fits⟩
  · exact h

/-- A write changes the place it names, if that lies in the rectangle, and no other. -/
theorem get?_set (h : img.Sized) (c : Colour) (x' y' : Nat) :
    (img.set x y c).get? x' y' =
      if img.contains x y ∧ x' = x ∧ y' = y then some c else img.get? x' y' := by
  unfold Image.set
  by_cases hp : img.contains x y
  · rw [if_pos hp]
    by_cases hp' : img.contains x' y'
    · have hread : ({ img with cells := img.cells.set (img.index x y) c } : Image).get? x' y' =
          (img.cells.set (img.index x y) c)[img.index x' y']? := if_pos hp'
      have hinj := h.index_inj hp hp'
      rw [hread, List.getElem?_set, get?, if_pos hp', if_pos (h.index_lt hp)]
      by_cases hplace : x' = x ∧ y' = y
      · rw [if_pos (hinj.2 ⟨hplace.1.symm, hplace.2.symm⟩), if_pos ⟨hp, hplace⟩]
      · rw [if_neg fun heq => hplace ⟨(hinj.1 heq).1.symm, (hinj.1 heq).2.symm⟩,
          if_neg fun hall => hplace hall.2]
    · have hother : ¬(img.contains x y ∧ x' = x ∧ y' = y) := by
        rintro ⟨-, rfl, rfl⟩
        exact hp' hp
      rw [if_neg hother, get?, get?, if_neg hp']
      exact if_neg hp'
  · rw [if_neg hp, if_neg fun hall => hp hall.1]

end Sized

/-- Writes colours at places, one after the other. -/
def write (img : Image) (writes : List (Nat × Nat × Colour)) : Image :=
  writes.foldl (fun img w => img.set w.1 w.2.1 w.2.2) img

/-- The colours that are written at a place, in their order. -/
def writtenAt (writes : List (Nat × Nat × Colour)) (x y : Nat) : List Colour :=
  writes.filterMap fun w => if x = w.1 ∧ y = w.2.1 then some w.2.2 else none

theorem writtenAt_cons (w : Nat × Nat × Colour) (rest : List (Nat × Nat × Colour)) (x y : Nat) :
    writtenAt (w :: rest) x y =
      if x = w.1 ∧ y = w.2.1 then w.2.2 :: writtenAt rest x y else writtenAt rest x y := by
  by_cases hplace : x = w.1 ∧ y = w.2.1
  · rw [if_pos hplace]
    exact List.filterMap_cons_some (if_pos hplace)
  · rw [if_neg hplace]
    exact List.filterMap_cons_none (if_neg hplace)

theorem contains_set (img : Image) (x y : Nat) (c : Colour) (x' y' : Nat) :
    (img.set x y c).contains x' y' = img.contains x' y' := by
  unfold set
  split <;> rfl

theorem contains_write (img : Image) (writes : List (Nat × Nat × Colour)) (x y : Nat) :
    (img.write writes).contains x y = img.contains x y := by
  induction writes generalizing img with
  | nil => rfl
  | cons w rest ih => exact (ih _).trans (contains_set ..)

theorem Sized.write {img : Image} (h : img.Sized) (writes : List (Nat × Nat × Colour)) :
    (img.write writes).Sized :=
  List.foldlRecOn writes _ h fun _ hs w _ => hs.set w.1 w.2.1 w.2.2

/-- A place has the colour that is written last. -/
theorem Sized.get?_write {img : Image} (h : img.Sized) {x y : Nat} (hp : img.contains x y)
    (writes : List (Nat × Nat × Colour)) :
    (img.write writes).get? x y = (writtenAt writes x y).getLast?.or (img.get? x y) := by
  induction writes generalizing img with
  | nil => rfl
  | cons w rest ih =>
    have hp' : (img.set w.1 w.2.1 w.2.2).contains x y := by rwa [contains_set]
    have hstep : (img.write (w :: rest)).get? x y =
        (writtenAt rest x y).getLast?.or ((img.set w.1 w.2.1 w.2.2).get? x y) :=
      ih (h.set w.1 w.2.1 w.2.2) hp'
    rw [hstep, h.get?_set, writtenAt_cons]
    by_cases hplace : x = w.1 ∧ y = w.2.1
    · have hcontains : img.contains w.1 w.2.1 := by rwa [← hplace.1, ← hplace.2]
      rw [if_pos ⟨hcontains, hplace⟩, if_pos hplace, List.getLast?_cons]
      cases (writtenAt rest x y).getLast? <;> rfl
    · rw [if_neg fun hall => hplace hall.2, if_neg hplace]

/-! ## Rows -/

theorem length_fitRow (width : Nat) (row : List Colour) : (fitRow width row).length = width := by
  rw [fitRow, List.length_append, List.length_take, List.length_replicate]
  omega

theorem getElem?_fitRow {width x : Nat} (hx : x < width) (row : List Colour) :
    (fitRow width row)[x]? = some (row[x]?.getD .transparent) := by
  rw [fitRow, List.getElem?_append, List.length_take, List.getElem?_take_of_lt hx]
  by_cases hrow : x < row.length
  · rw [if_pos (by omega), List.getElem?_eq_getElem hrow, Option.getD_some]
  · rw [if_neg (by omega), List.getElem?_replicate, if_pos (by omega),
      List.getElem?_eq_none (by omega), Option.getD_none]

theorem length_flatMap_fitRow (width : Nat) (rows : List (List Colour)) :
    (rows.flatMap (fitRow width)).length = width * rows.length := by
  induction rows with
  | nil => rfl
  | cons row rest ih =>
    rw [List.flatMap_cons, List.length_append, length_fitRow, ih, List.length_cons, Nat.mul_succ,
      Nat.add_comm]

theorem getElem?_flatMap_fitRow {width x : Nat} (hx : x < width) (rows : List (List Colour))
    (y : Nat) :
    (rows.flatMap (fitRow width))[y * width + x]? =
      rows[y]?.map fun row => row[x]?.getD .transparent := by
  induction rows generalizing y with
  | nil => rfl
  | cons row rest ih =>
    rw [List.flatMap_cons]
    cases y with
    | zero =>
      rw [Nat.zero_mul, Nat.zero_add, List.getElem?_append_left (by rwa [length_fitRow]),
        getElem?_fitRow hx]
      rfl
    | succ y =>
      have hplace : (y + 1) * width + x = width + (y * width + x) := by
        rw [Nat.succ_mul, Nat.add_comm _ width, Nat.add_assoc]
      rw [List.getElem?_append_right (by rw [length_fitRow]; omega), length_fitRow, hplace,
        Nat.add_sub_cancel_left, ih, List.getElem?_cons_succ]

theorem le_foldl_max (lengths : List Nat) (start : Nat) :
    start ≤ lengths.foldl max start ∧ ∀ n ∈ lengths, n ≤ lengths.foldl max start := by
  induction lengths generalizing start with
  | nil => exact ⟨Nat.le_refl _, fun _ hn => absurd hn List.not_mem_nil⟩
  | cons m rest ih =>
    obtain ⟨hstart, hrest⟩ := ih (max start m)
    refine ⟨Nat.le_trans (Nat.le_max_left start m) hstart, fun n hn => ?_⟩
    rcases List.mem_cons.1 hn with rfl | hn
    · exact Nat.le_trans (Nat.le_max_right start n) hstart
    · exact hrest n hn

theorem length_le_longest {rows : List (List Colour)} {row : List Colour} (h : row ∈ rows) :
    row.length ≤ longest rows :=
  (le_foldl_max _ 0).2 _ (List.mem_map_of_mem h)

/-- No size wraps around, but for the number of rows that are all empty. -/
theorem words_of_fits {rows : List (List Colour)}
    (h : longest rows * rows.length < UInt32.size) :
    word (longest rows) = longest rows ∧
      (longest rows = 0 ∨ word rows.length = rows.length) := by
  cases rows with
  | nil => exact ⟨rfl, .inl rfl⟩
  | cons row rest =>
    have hwidth : longest (row :: rest) ≤ longest (row :: rest) * (row :: rest).length :=
      Nat.le_mul_of_pos_right _ (Nat.succ_pos _)
    refine ⟨word_of_lt (Nat.lt_of_le_of_lt hwidth h), ?_⟩
    rcases Nat.eq_zero_or_pos (longest (row :: rest)) with hzero | hpos
    · exact .inl hzero
    · exact .inr (word_of_lt (Nat.lt_of_le_of_lt (Nat.le_mul_of_pos_left _ hpos) h))

section

variable {rows : List (List Colour)} (h : longest rows * rows.length < UInt32.size)
include h

theorem contains_ofRows {x y : Nat} :
    (ofRows rows).contains x y ↔ x < longest rows ∧ y < rows.length := by
  obtain ⟨hwidth, hheight⟩ := words_of_fits h
  rw [contains_iff, ofRows, hwidth]
  rcases hheight with hzero | hheight
  · simp [hzero]
  · rw [hheight]

theorem sized_ofRows : (ofRows rows).Sized := by
  obtain ⟨hwidth, hheight⟩ := words_of_fits h
  have hcount : longest rows * word rows.length = longest rows * rows.length := by
    rcases hheight with hzero | hheight
    · rw [hzero, Nat.zero_mul, Nat.zero_mul]
    · rw [hheight]
  refine ⟨?_, ?_⟩
  · rw [ofRows, length_flatMap_fitRow, hwidth, hcount]
  · rw [ofRows, hwidth, hcount]
    exact h

theorem get?_ofRows {x y : Nat} {row : List Colour} (hx : x < longest rows)
    (hrow : rows[y]? = some row) :
    (ofRows rows).get? x y = some (row[x]?.getD .transparent) := by
  obtain ⟨hy, -⟩ := List.getElem?_eq_some_iff.1 hrow
  have hp : (ofRows rows).contains x y := (contains_ofRows h).2 ⟨hx, hy⟩
  have hwidth := (words_of_fits h).1
  rw [get?, if_pos hp, (sized_ofRows h).index_eq hp, ofRows, hwidth, getElem?_flatMap_fitRow hx,
    hrow]
  rfl

end

/-- What is seen of rows on which colours were written. -/
structure Shows (img : Image) (rows : List (List Colour)) (writes : List (Nat × Nat × Colour)) :
    Prop where
  /-- The colour that was written last at a place of the rectangle. -/
  written : ∀ x y c, x < longest rows → y < rows.length →
    (writtenAt writes x y).getLast? = some c → img.get? x y = some c
  /-- Where nothing was written, the cell of the row. -/
  cell : ∀ x y row c, rows[y]? = some row → row[x]? = some c → writtenAt writes x y = [] →
    img.get? x y = some c
  /-- Where nothing was written and the row is short, a transparent cell. -/
  padding : ∀ x y row, x < longest rows → rows[y]? = some row → row.length ≤ x →
    writtenAt writes x y = [] → img.get? x y = some .transparent
  outside : ∀ x y, img.get? x y = none ↔ ¬(x < longest rows ∧ y < rows.length)

theorem shows_write {rows : List (List Colour)} (h : longest rows * rows.length < UInt32.size)
    (writes : List (Nat × Nat × Colour)) : ((ofRows rows).write writes).Shows rows writes := by
  have hsized := sized_ofRows h
  have hget {x y : Nat} {row : List Colour} (hx : x < longest rows) (hrow : rows[y]? = some row) :
      ((ofRows rows).write writes).get? x y =
        (writtenAt writes x y).getLast?.or (some (row[x]?.getD .transparent)) := by
    have hy := (List.getElem?_eq_some_iff.1 hrow).1
    rw [hsized.get?_write ((contains_ofRows h).2 ⟨hx, hy⟩), get?_ofRows h hx hrow]
  constructor
  case written =>
    intro x y c hx hy hlast
    rw [hget hx (List.getElem?_eq_getElem hy), hlast]
    rfl
  case cell =>
    intro x y row c hrow hc hnone
    have hx : x < row.length := (List.getElem?_eq_some_iff.1 hc).1
    have hlongest := length_le_longest (List.mem_of_getElem? hrow)
    rw [hget (Nat.lt_of_lt_of_le hx hlongest) hrow, hnone, hc]
    rfl
  case padding =>
    intro x y row hx hrow hshort hnone
    rw [hget hx hrow, hnone, List.getElem?_eq_none hshort]
    rfl
  case outside =>
    intro x y
    refine ⟨fun hnone hp => ?_, fun hp => ?_⟩
    · rw [hget hp.1 (List.getElem?_eq_getElem hp.2)] at hnone
      simp at hnone
    · rw [get?, contains_write, if_neg fun hin => hp ((contains_ofRows h).1 hin)]

/-! ## Cells with their places -/

/-- The order of places row by row. -/
def RowMajor (p q : Nat × Nat × Colour) : Prop := p.2.1 < q.2.1 ∨ p.2.1 = q.2.1 ∧ p.1 < q.1

theorem Sized.getElem?_places {img : Image} (h : img.Sized) (i : Nat) :
    img.places[i]? = img.cells[i]?.map fun c => (i % img.width, i / img.width, c) := by
  rw [places, List.getElem?_mapIdx]
  by_cases hi : i < img.cells.length
  · have hpos := (h.exists_place hi).1
    have hword : word i = i := word_of_lt (Nat.lt_trans (h.length_cells ▸ hi) h.fits)
    rw [hword, Nat.max_eq_left hpos]
  · rw [List.getElem?_eq_none (Nat.le_of_not_lt hi)]
    rfl

theorem Sized.mem_places_iff {img : Image} (h : img.Sized) {x y : Nat} {c : Colour} :
    (x, y, c) ∈ img.places ↔ img.get? x y = some c := by
  rw [List.mem_iff_getElem?]
  refine ⟨?_, fun hget => ?_⟩
  · rintro ⟨i, hi⟩
    rw [h.getElem?_places, Option.map_eq_some_iff] at hi
    obtain ⟨c, hc, hplace⟩ := hi
    obtain ⟨rfl, rfl, rfl⟩ : i % img.width = x ∧ i / img.width = y ∧ c = _ := by
      simpa using hplace
    obtain ⟨-, hp, hindex⟩ := h.exists_place (List.getElem?_eq_some_iff.1 hc).1
    rw [get?, if_pos hp, hindex, hc]
  · by_cases hp : img.contains x y
    · rw [get?, if_pos hp] at hget
      refine ⟨img.index x y, ?_⟩
      rw [h.getElem?_places, hget, h.index_mod hp, h.index_div hp]
      rfl
    · rw [get?, if_neg hp] at hget
      exact absurd hget (by simp)

/-- Numbers in order are places in order: by the row, and in a row by the column. -/
theorem Sized.pairwise_places {img : Image} (h : img.Sized) : img.places.Pairwise RowMajor := by
  have hplace {i : Nat} (hi : i < img.places.length) :
      ∃ c, img.places[i] = (i % img.width, i / img.width, c) := by
    have hget := h.getElem?_places i
    rw [List.getElem?_eq_getElem hi] at hget
    obtain ⟨c, -, hc⟩ := Option.map_eq_some_iff.1 hget.symm
    exact ⟨c, hc.symm⟩
  rw [List.pairwise_iff_getElem]
  intro i j hi hj hij
  obtain ⟨c, hc⟩ := hplace hi
  obtain ⟨d, hd⟩ := hplace hj
  rw [hc, hd]
  have hrow : i / img.width ≤ j / img.width := Nat.div_le_div_right (Nat.le_of_lt hij)
  rcases Nat.lt_or_eq_of_le hrow with hlt | heq
  · exact .inl hlt
  · have hi' := Nat.div_add_mod i img.width
    have hj' := Nat.div_add_mod j img.width
    refine .inr ⟨heq, ?_⟩
    rw [heq] at hi'
    change i % img.width < j % img.width
    omega

end Image

/-! ## From rows to pixels -/

/-- **The places of rows.** On an image that is made of rows and written on, a place shows what was
written last, or else the cell of the row, or else a transparent one. A write outside the rectangle
changes nothing, and the number of a place inside it is that of a cell. The list of places goes
through the rectangle row by row, each place once and with the colour that is seen there; the pixels
of a language are that list without the blank cells. -/
theorem Language.pixels_of_rows (rows : List (List Colour))
    (h : Image.longest rows * rows.length < UInt32.size) (writes : List (Nat × Nat × Colour)) :
    let img := (Image.ofRows rows).write writes
    img.Shows rows writes ∧
      (∀ x y c, ¬(x < Image.longest rows ∧ y < rows.length) → img.set x y c = img) ∧
      (∀ x y, x < Image.longest rows → y < rows.length → img.index x y < img.cells.length) ∧
      img.places.Pairwise Image.RowMajor ∧
      (∀ x y c, (x, y, c) ∈ img.places ↔ img.get? x y = some c) ∧
      ∀ l : Language, l.pixels img =
        (img.places.filter fun p => classify l.scheme l.catalog p.2.2 != .blank).map fun p =>
          ⟨p.2.2, p.1, p.2.1, classify l.scheme l.catalog p.2.2⟩ := by
  intro img
  have hsized : img.Sized := (Image.sized_ofRows h).write writes
  have hcontains {x y : Nat} : img.contains x y ↔ x < Image.longest rows ∧ y < rows.length := by
    rw [Image.contains_write, Image.contains_ofRows h]
  refine ⟨Image.shows_write h writes, fun x y c hp => ?_, fun x y hx hy => ?_,
    hsized.pairwise_places, fun x y c => hsized.mem_places_iff, fun l => ?_⟩
  · exact if_neg fun hin => hp (hcontains.1 hin)
  · exact hsized.index_lt (hcontains.2 ⟨hx, hy⟩)
  · exact List.filter_map

/-- Rows of three lengths. -/
def raggedRows : List (List Colour) :=
  [[Scheme.solid 0x000001, Scheme.solid 0x000002], [],
    [Scheme.solid 0x000003, .white, Scheme.solid 0x000004]]

/-- Two writes at one place, with one outside the rectangle between them. -/
def raggedWrites : List (Nat × Nat × Colour) :=
  [(1, 0, Scheme.solid 0x000005), (3, 0, .white), (1, 0, Scheme.solid 0x000006)]

theorem Language.pixels_raggedRows :
    Image.longest raggedRows * raggedRows.length < UInt32.size ∧
      ((Image.ofRows raggedRows).write raggedWrites).get? 1 0 = some (Scheme.solid 0x000006) ∧
      ((Image.ofRows raggedRows).write raggedWrites).get? 2 2 = some (Scheme.solid 0x000004) ∧
      ((Image.ofRows raggedRows).write raggedWrites).get? 2 1 = some .transparent ∧
      ((Image.ofRows raggedRows).write raggedWrites).get? 3 0 = none := by
  have hfits : Image.longest raggedRows * raggedRows.length < UInt32.size := by decide
  have hshows := (Language.pixels_of_rows raggedRows hfits raggedWrites).1
  refine ⟨hfits, ?_, ?_, ?_, ?_⟩
  · exact hshows.written 1 0 _ (by decide) (by decide) (by decide)
  · exact hshows.cell 2 2 _ _ rfl rfl (by decide)
  · exact hshows.padding 2 1 _ (by decide) rfl (by decide) (by decide)
  · exact (hshows.outside 3 0).2 (by decide)

end PixelLang
