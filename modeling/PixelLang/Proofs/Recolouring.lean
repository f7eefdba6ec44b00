import Mathlib.Logic.Equiv.Basic
import PixelLang.Proofs.Likeness.Runs
import PixelLang.Proofs.Lines
import PixelLang.Proofs.Naming

/-!
# Recolouring

Which colours a program takes for its names does not matter, as long as different names have
different colours. An injective map of the colours that stand for names is a renaming
(`Likeness.renaming`): it keeps the kinds of pixels and tells keys apart as before. So recolouring
the names of an image keeps all but the names in its code and in its messages
(`Language.evaluate_recolour`).
-/

set_option autoImplicit false

namespace PixelLang

/-! ## Colours of names -/

/-- A colour is a name if no key that the language gives a meaning to paints it, nor that of a
library symbol. -/
theorem unpainted_of_symbol {scheme : Scheme} {catalog : Catalog} {c : Colour}
    (h : classify scheme catalog c = .symbol) :
    scheme.paints Scheme.blankKey c = false ∧ (∀ b, scheme.paints (Scheme.boolKey b) c = false) ∧
      (∀ op ∈ Operator.all, scheme.paints op.key c = false) ∧
      (∀ k ∈ catalog.keywords, scheme.paints k.key c = false) ∧
      ∀ entry ∈ scheme.librarySymbols, entry.2.holds c = false := by
  unfold classify at h
  split at h
  · cases h
  rename_i hblank
  split at h
  · cases h
  rename_i htrue
  split at h
  · cases h
  rename_i hfalse
  split at h
  · cases h
  rename_i hoperator
  split at h
  · cases h
  rename_i hkeyword
  unfold classifyOpen at h
  split at h
  · cases h
  rename_i hlibrary
  simp only [isBlankColour, Bool.or_eq_true, not_or, Bool.not_eq_true] at hblank
  refine ⟨hblank.2, ?_, ?_, ?_, ?_⟩
  · intro b
    cases b
    · simpa using hfalse
    · simpa using htrue
  · simpa using hoperator
  · simpa [Catalog.byColour?] using hkeyword
  · simpa using hlibrary

/-- With all keywords, a colour that the scheme mentions is no name. -/
theorem classify_ne_symbol {scheme : Scheme} {key : String} {c : Colour}
    (h : scheme.paints key c) : classify scheme .standard c ≠ .symbol := by
  intro hsymbol
  obtain ⟨hblank, hbool, hoperator, hkeyword, hlibrary⟩ := unpainted_of_symbol hsymbol
  cases hfixed : Scheme.isFixedKey key with
  | true =>
    simp only [Scheme.isFixedKey, Bool.or_eq_true, beq_iff_eq, List.any_eq_true] at hfixed
    rcases hfixed with (((rfl | rfl) | rfl) | ⟨op, hop, rfl⟩) | ⟨k, hk, rfl⟩
    · exact absurd h (by simp [hblank])
    · exact absurd h (by simp [hbool])
    · exact absurd h (by simp [hbool])
    · exact absurd h (by simp [hoperator op hop])
    · exact absurd h (by simp [hkeyword k hk])
  | false =>
    unfold Scheme.paints at h
    cases hget : scheme.get? key with
    | none => simp [hget] at h
    | some swatch =>
      have hentry : (key, swatch) ∈ scheme.librarySymbols :=
        List.mem_filter.2 ⟨Scheme.mem_entries_iff.2 hget, by simp [hfixed]⟩
      rw [hget] at h
      exact absurd h (by simp [hlibrary _ hentry])

namespace Language

variable (l : Language)

/-- The colours that stand for names. -/
def NameColour : Type := { c : Colour // classify l.scheme l.catalog c = .symbol }

variable {l} (f : l.NameColour → l.NameColour)

/-- The colour with which a name is painted in place of `c`; other colours stay. -/
def recolour (c : Colour) : Colour :=
  if h : classify l.scheme l.catalog c = .symbol then (f ⟨c, h⟩).1 else c

theorem recolour_of_ne {c : Colour} (h : classify l.scheme l.catalog c ≠ .symbol) :
    recolour f c = c := dif_neg h

theorem classify_recolour (c : Colour) :
    classify l.scheme l.catalog (recolour f c) = classify l.scheme l.catalog c := by
  by_cases h : classify l.scheme l.catalog c = .symbol
  · rw [recolour, dif_pos h, h]
    exact (f ⟨c, h⟩).2
  · rw [recolour_of_ne f h]

theorem recolour_injective {f : l.NameColour → l.NameColour} (hf : Function.Injective f) :
    Function.Injective (recolour f) := by
  intro c d h
  have hkind : classify l.scheme l.catalog c = classify l.scheme l.catalog d := by
    rw [← classify_recolour f c, h, classify_recolour]
  by_cases hc : classify l.scheme l.catalog c = .symbol
  · have hd := hkind ▸ hc
    rw [recolour, recolour, dif_pos hc, dif_pos hd] at h
    exact congrArg Subtype.val (hf (Subtype.ext h))
  · rwa [recolour_of_ne f hc, recolour_of_ne f (hkind ▸ hc)] at h

end Language

/-! ## Renaming -/

theorem Pixel.not_mem_identifier (p : Pixel) : '\n' ∉ p.identifier.toList := by
  intro h
  rw [identifier, String.toList_append, List.mem_append] at h
  rcases h with h | h
  · simp at h
  · obtain ⟨n, hn, hdigit⟩ := Colour.exists_digit_of_mem_hex h
    exact absurd hdigit ((by decide : ∀ n < 16, '\n' ≠ Text.Hex.digit n) n hn)

/-- Names are painted with other colours, and texts have the same number of lines. -/
def Likeness.renaming {l : Language} {f : l.NameColour → l.NameColour}
    (hf : Function.Injective f) : Likeness where
  pixel p q :=
    p.kind = classify l.scheme l.catalog p.colour ∧
      q = l.pixel p.x p.y (Language.recolour f p.colour)
  key k k' :=
    (∃ c : Colour, k = c.hex ∧ k' = (Language.recolour f c).hex) ∨
      k = k' ∧ ∀ c : Colour, k ≠ c.hex
  text s t := s.toList.count '\n' = t.toList.count '\n' ∧ (s = "" ↔ t = "")
  place := Eq
  kind_eq := by
    rintro p q ⟨hkind, rfl⟩
    rw [hkind]
    exact (Language.classify_recolour f p.colour).symm
  key_hex := by
    rintro p q ⟨-, rfl⟩
    exact .inl ⟨p.colour, rfl, rfl⟩
  key_eq_iff := by
    rintro k k' m m' (⟨c, rfl, rfl⟩ | ⟨rfl, hk⟩) (⟨d, rfl, rfl⟩ | ⟨rfl, hm⟩)
    · rw [Colour.hex_injective.eq_iff, Colour.hex_injective.eq_iff,
        (Language.recolour_injective hf).eq_iff]
    · exact iff_of_false (hm c).symm (hm _).symm
    · exact iff_of_false (hk d) (hk _)
    · rfl
  text_identifier {p q} _ := by
    rw [List.count_eq_zero.2 p.not_mem_identifier, List.count_eq_zero.2 q.not_mem_identifier]
    simp [Pixel.identifier]
  text_refl _ := ⟨rfl, .rfl⟩
  text_append := by
    rintro s s' t t' ⟨hs, hs'⟩ ⟨ht, ht'⟩
    rw [String.toList_append, String.toList_append, List.count_append, List.count_append, hs, ht,
      String.append_eq_empty_iff, String.append_eq_empty_iff, hs', ht']
    exact ⟨rfl, .rfl⟩
  text_isEmpty h := by rw [Bool.eq_iff_iff, String.isEmpty_iff, String.isEmpty_iff, h.2]
  place_pixel := by
    rintro p q ⟨-, rfl⟩
    rfl
  place_zero := rfl

theorem Likeness.Problems.kind_eq {L : Likeness} {a b : Problem} (h : L.Problems a b) :
    a.kind = b.kind := by
  cases h <;> rfl

/-- The code ends with a line feed, so it has as many lines as line feeds. -/
theorem Layout.length_lines_finish (layout : Layout) :
    (Text.lines layout.finish.toList).length = layout.finish.toList.count '\n' := by
  unfold finish
  split
  · rfl
  · rw [String.toList_append, show "\n".toList = ['\n'] from rfl, Text.lines_concat,
      Text.length_splitOn, List.count_append, List.count_singleton_self]

/-! ## Images -/

/-- The image with every cell painted anew. -/
def Image.map (g : Colour → Colour) (img : Image) : Image := { img with cells := img.cells.map g }

namespace Language

variable {l : Language} {f : l.NameColour → l.NameColour}

theorem cells_map (g : Colour → Colour) (img : Image) :
    l.cells (img.map g) = (l.cells img).map fun p => l.pixel p.x p.y (g p.colour) := by
  apply List.ext_getElem?
  intro i
  simp only [cells, Image.places, Image.map, List.getElem?_map, List.getElem?_mapIdx,
    Option.map_map]
  rfl

theorem forall₂_recolour (hf : Function.Injective f) (img : Image) :
    List.Forall₂ (Likeness.renaming hf).pixel (l.pixels img)
      (l.pixels (img.map (recolour f))) := by
  have hkind : ∀ p ∈ l.cells img, p.kind = classify l.scheme l.catalog p.colour := by
    intro p hp
    obtain ⟨⟨x, y, c⟩, -, rfl⟩ := List.mem_map.1 hp
    rfl
  have hblank : ∀ p ∈ l.cells img,
      (!(l.pixel p.x p.y (recolour f p.colour)).isBlank) = !p.isBlank := by
    intro p hp
    rw [Pixel.isBlank, Pixel.isBlank, hkind p hp, ← classify_recolour f]
    rfl
  have hpixels : l.pixels (img.map (recolour f)) =
      (l.pixels img).map fun p => l.pixel p.x p.y (recolour f p.colour) := by
    rw [pixels, cells_map, List.filter_map, pixels]
    exact congrArg _ (List.filter_congr hblank)
  rw [hpixels, List.forall₂_map_right_iff, List.forall₂_same]
  exact fun p hp => ⟨hkind p (List.mem_of_mem_filter hp), rfl⟩

/-- Library functions are not renamed. -/
theorem forall₂_globalBindings (hl : l.catalog = .standard) (hf : Function.Injective f) :
    List.Forall₂ (Likeness.renaming hf).Bound l.globalBindings.entries
      l.globalBindings.entries := by
  refine List.forall₂_same.2 fun entry hentry => ⟨?_, .refl entry.2⟩
  by_cases hkey : ∃ c : Colour, entry.1 = c.hex
  · obtain ⟨c, hc⟩ := hkey
    obtain ⟨library, -, function, -, swatch, hget, hhex, -⟩ := offers_of_mem_globalBindings hentry
    have hpaints : l.scheme.paints (library.key function.name) c := by
      rw [Scheme.paints, hget]
      simpa [Swatch.holds, ← hc] using hhex
    have hne : classify l.scheme l.catalog c ≠ .symbol := hl ▸ classify_ne_symbol hpaints
    exact .inl ⟨c, hc, by rw [recolour_of_ne f hne, hc]⟩
  · exact .inr ⟨rfl, fun c hc => hkey ⟨c, hc⟩⟩

/-- **Names matter only through equality.** In a language with all keywords, let the colours of
names be mapped to colours of names, different ones to different ones. If the cells of an image that
are names are painted anew by the map, the program is invalidated exactly if it was before, its code
has as many lines as before, and its diagnostics are the same in number and order and agree in kind,
place, token, statement and template. -/
theorem evaluate_recolour (l : Language) (hl : l.catalog = .standard)
    (f : l.NameColour → l.NameColour) (hf : Function.Injective f) (img : Image) :
    let e := l.evaluate img
    let e' := l.evaluate (img.map (recolour f))
    e'.invalidated = e.invalidated ∧
    (Text.lines e'.code.toList).length = (Text.lines e.code.toList).length ∧
    e'.diagnostics.map (fun d => (d.kind, d.x, d.y, d.tokenIndex, d.keyword, d.template)) =
      e.diagnostics.map fun d => (d.kind, d.x, d.y, d.tokenIndex, d.keyword, d.template) := by
  intro e e'
  obtain ⟨hcode, hinvalidated, hdiagnostics⟩ :=
    Likeness.evaluatePixels_alike (forall₂_recolour hf img) (forall₂_globalBindings hl hf)
  refine ⟨hinvalidated.symm, ?_, ?_⟩
  · have hlines : (Text.lines e.code.toList).length = e.code.toList.count '\n' :=
      Layout.length_lines_finish _
    have hlines' : (Text.lines e'.code.toList).length = e'.code.toList.count '\n' :=
      Layout.length_lines_finish _
    rw [hlines, hlines']
    exact hcode.1.symm
  · refine (map_eq_of_forall₂ (fun d d' hd => ?_) hdiagnostics).symm
    obtain ⟨hx, hy⟩ := Prod.mk.inj hd.place
    rw [Diagnostic.kind, Diagnostic.kind, hd.problem.kind_eq, hx, hy, hd.tokenIndex, hd.keyword,
      hd.template]

instance : DecidableEq l.NameColour :=
  inferInstanceAs (DecidableEq { c : Colour // classify l.scheme l.catalog c = .symbol })

/-- The two names of `declaringImage`, one in place of the other. -/
def swapNames : declaring.NameColour → declaring.NameColour :=
  Equiv.swap ⟨Scheme.solid 0xF04080, by decide +kernel⟩ ⟨Scheme.solid 0xF04081, by decide +kernel⟩

theorem evaluate_swapNames :
    let e := declaring.evaluate declaringImage
    let e' := declaring.evaluate (declaringImage.map (recolour swapNames))
    declaring.catalog = .standard ∧ Function.Injective swapNames ∧
      e.code = "fun _F04080(_F04081: Any?): Any? \x7b\n" ∧
      e'.code = "fun _F04081(_F04080: Any?): Any? \x7b\n" ∧
      e.diagnostics.length = 1 ∧ e'.invalidated = e.invalidated ∧
      (Text.lines e'.code.toList).length = (Text.lines e.code.toList).length ∧
      e'.diagnostics.map (fun d => (d.kind, d.x, d.y, d.tokenIndex, d.keyword, d.template)) =
        e.diagnostics.map fun d => (d.kind, d.x, d.y, d.tokenIndex, d.keyword, d.template) := by
  have hinjective : Function.Injective swapNames := (Equiv.swap _ _).injective
  exact ⟨rfl, hinjective, by decide +kernel, by decide +kernel, by decide +kernel,
    evaluate_recolour declaring rfl swapNames hinjective declaringImage⟩

end Language

end PixelLang
