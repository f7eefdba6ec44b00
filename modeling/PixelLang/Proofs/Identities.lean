import PixelLang.Proofs.HexForms
import PixelLang.Proofs.Naming

/-!
# Colours by their hex texts

The hex text of a colour reads back as the colour, with and without the `#`. A swatch keeps hex
texts only, and is a set of colours all the same.

* `Colour.ofHex_hex`, `Colour.ofHex_display`: a written colour reads back.
* `Swatch.Lists`: a swatch holds the hex texts of some colours, each once and in the order in which
  they are first mentioned. Inserting one more colour keeps that (`Lists.insert`).
* `Colour.hex_identity`: hex texts stand for colours.
-/

set_option autoImplicit false

namespace PixelLang

namespace Text

theorem dropWhile_isBlank {cs : List Char} (h : ∀ ch ∈ cs, isBlank ch = false) :
    cs.dropWhile isBlank = cs := by
  cases cs with
  | nil => rfl
  | cons ch cs => rw [List.dropWhile_cons, h ch (.head _)]; rfl

theorem trim_of_not_isBlank {cs : List Char} (h : ∀ ch ∈ cs, isBlank ch = false) :
    trim cs = cs := by
  have hreverse : ∀ ch ∈ cs.reverse, isBlank ch = false := fun ch hch =>
    h ch (List.mem_reverse.1 hch)
  rw [trim, trimEnd, dropWhile_isBlank h, dropWhile_isBlank hreverse, List.reverse_reverse]

end Text

namespace Colour

open Text.Hex

/-! ## Reading back -/

theorem map_value?_byte (b : UInt8) : (byte b).map value? = (nibbles b).map some := by
  have hb := b.toNat_lt
  have hhigh := value?_digit (b.toNat / 16) (by omega)
  have hlow := value?_digit (b.toNat % 16) (by omega)
  simp [byte, nibbles, hhigh, hlow]

theorem map_value?_flatMap_byte (channels : List UInt8) :
    (channels.flatMap byte).map value? = (channels.flatMap nibbles).map some := by
  induction channels with
  | nil => rfl
  | cons b channels ih => simp only [List.flatMap_cons, List.map_append, map_value?_byte, ih]

/-- The digits of a colour are those of the channels that its form gives. -/
theorem exists_form_hexDigits (c : Colour) :
    ∃ channels, c.IsForm channels ∧ c.hexDigits = channels.flatMap byte := by
  by_cases halpha : c.alpha = 255
  · exact ⟨_, .inl ⟨rfl, halpha⟩, by simp [hexDigits_eq, halpha]⟩
  · exact ⟨_, .inr rfl, by simp [hexDigits_eq, halpha]⟩

theorem spelled_hexDigits (c : Colour) : Spelled c.hexDigits c := by
  obtain ⟨channels, hform, hdigits⟩ := c.exists_form_hexDigits
  have hfew := hform.length
  rw [hdigits]
  refine ⟨_, channels, map_value?_flatMap_byte channels, hform, if_neg ?_⟩
  have hlength := length_of_map_value? (map_value?_flatMap_byte channels)
  rw [length_flatMap_pair nibbles fun _ => rfl] at hlength
  omega

theorem toList_hex (c : Colour) : c.hex.toList = c.hexDigits := String.toList_ofList

theorem isDigit_of_mem_hexDigits {c : Colour} {ch : Char} (h : ch ∈ c.hexDigits) : IsDigit ch := by
  rw [← toList_hex] at h
  obtain ⟨n, hn, rfl⟩ := exists_digit_of_mem_hex h
  exact exists_value?_iff.1 ⟨n, value?_digit n hn⟩

theorem isBlank_of_isDigit {ch : Char} (h : IsDigit ch) : Text.isBlank ch = false := by
  rw [isDigit_iff] at h
  simp only [Text.isBlank, Bool.or_eq_false_iff, Bool.and_eq_false_iff, decide_eq_false_iff_not,
    beq_eq_false_iff_ne]
  omega

/-- A text whose body is the digits of a colour reads as the colour. -/
theorem ofHex_of_hexBody {s : String} {c : Colour} (h : hexBody s = c.hexDigits) :
    ofHex s = .ok c := by
  have hsign : '+' ∉ c.hexDigits := fun hmem => absurd (isDigit_of_mem_hexDigits hmem) (by decide)
  refine ofHex_eq_ok_iff.2 ⟨fun i hi => absurd (List.mem_of_getElem? hi) (h ▸ hsign), ?_⟩
  rw [h, map_unsigned hsign]
  exact c.spelled_hexDigits

theorem ofHex_hex (c : Colour) : ofHex c.hex = .ok c := by
  refine ofHex_of_hexBody ?_
  rw [hexBody, toList_hex, Text.trim_of_not_isBlank fun ch hch =>
    isBlank_of_isDigit (isDigit_of_mem_hexDigits hch)]
  unfold dropHash
  split
  · rename_i rest hdigits
    have hhash : IsDigit '#' := c.isDigit_of_mem_hexDigits (hdigits ▸ .head _)
    exact absurd hhash (by decide)
  · rfl

theorem ofHex_display (c : Colour) : ofHex c.display = .ok c := by
  refine ofHex_of_hexBody ?_
  have htext : c.display.toList = '#' :: c.hexDigits := by
    rw [display, String.toList_append, toList_hex]
    rfl
  rw [hexBody, htext, Text.trim_of_not_isBlank, dropHash]
  rintro ch (_ | ⟨_, hch⟩)
  · rfl
  · exact isBlank_of_isDigit (isDigit_of_mem_hexDigits hch)

end Colour

/-! ## Swatches as sets of colours -/

namespace Swatch

/-- The swatch has the hex texts of the colours, each once, in the order of their first mention. -/
structure Lists (s : Swatch) (colours : List Colour) : Prop where
  mem : ∀ hex, hex ∈ s.hexes ↔ hex ∈ colours.map Colour.hex
  order : s.hexes.Pairwise fun a b =>
    (colours.map Colour.hex).idxOf a < (colours.map Colour.hex).idxOf b

theorem lists_empty : Lists ⟨[]⟩ [] := ⟨fun _ => Iff.rfl, .nil⟩

/-- A colour that is there changes nothing, and a new one comes last. -/
theorem Lists.insert {s : Swatch} {colours : List Colour} (h : s.Lists colours) (c : Colour) :
    (s.insert c).Lists (colours ++ [c]) := by
  -- texts that are there keep their places, since the colour is added at the end
  have hplace {hex : String} (hhex : hex ∈ s.hexes) :
      ((colours ++ [c]).map Colour.hex).idxOf hex = (colours.map Colour.hex).idxOf hex := by
    rw [List.map_append, List.idxOf_append_of_mem ((h.mem hex).1 hhex)]
  have hkept : s.hexes.Pairwise fun a b =>
      ((colours ++ [c]).map Colour.hex).idxOf a < ((colours ++ [c]).map Colour.hex).idxOf b :=
    h.order.imp_of_mem fun ha hb hlt => by rwa [hplace ha, hplace hb]
  by_cases hc : c.hex ∈ s.hexes
  · have hsame : s.insert c = s := if_pos (List.contains_iff_mem.2 hc)
    rw [hsame]
    refine ⟨fun hex => ?_, hkept⟩
    rw [h.mem, List.map_append, List.mem_append]
    refine ⟨.inl, fun hmem => hmem.elim id fun hlast => ?_⟩
    rw [List.mem_singleton.1 hlast]
    exact (h.mem c.hex).1 hc
  · have hadded : s.insert c = ⟨s.hexes ++ [c.hex]⟩ :=
      if_neg fun hmem => hc (List.contains_iff_mem.1 hmem)
    rw [hadded]
    refine ⟨fun hex => ?_, List.pairwise_append.2 ⟨hkept, List.pairwise_singleton _ _, ?_⟩⟩
    · simp only [List.mem_append, List.map_append, h.mem, List.map_cons, List.map_nil]
    · intro a ha b hb
      obtain rfl := List.mem_singleton.1 hb
      have hlt := List.idxOf_lt_length_of_mem ((h.mem a).1 ha)
      have hlast :
          ((colours ++ [c]).map Colour.hex).idxOf c.hex = (colours.map Colour.hex).length := by
        rw [List.map_append, List.idxOf_append_of_notMem fun hmem => hc ((h.mem _).2 hmem)]
        simp
      rw [hplace ha, hlast]
      exact hlt

theorem lists_ofColours (colours : List Colour) : (ofColours colours).Lists colours := by
  induction colours using List.reverseRecOn with
  | nil => exact lists_empty
  | append_singleton colours c ih =>
    have hstep : ofColours (colours ++ [c]) = (ofColours colours).insert c := by
      rw [ofColours, List.foldl_append]
      rfl
    rw [hstep]
    exact ih.insert c

variable {s : Swatch} {colours : List Colour}

theorem Lists.nodup (h : s.Lists colours) : s.hexes.Nodup :=
  h.order.imp fun hlt heq => by
    rw [heq] at hlt
    exact absurd hlt (Nat.lt_irrefl _)

theorem Lists.holds_iff (h : s.Lists colours) (c : Colour) : s.holds c ↔ c ∈ colours := by
  rw [holds, List.contains_iff_mem, h.mem, List.mem_map_of_injective Colour.hex_injective]

/-- Nothing comes before the first mention. -/
theorem Lists.head? (h : s.Lists colours) : s.hexes.head? = (colours.map Colour.hex).head? := by
  cases colours with
  | nil =>
    have hnone : s.hexes = [] := List.eq_nil_iff_forall_not_mem.2 fun hex hmem =>
      absurd ((h.mem hex).1 hmem) List.not_mem_nil
    rw [hnone]
    rfl
  | cons c colours =>
    have hmem : c.hex ∈ s.hexes := (h.mem _).2 (.head _)
    have horder := h.order
    cases hhexes : s.hexes with
    | nil =>
      rw [hhexes] at hmem
      exact absurd hmem List.not_mem_nil
    | cons hex rest =>
      rw [hhexes] at hmem horder
      rcases List.mem_cons.1 hmem with heq | hrest
      · rw [← heq]
        rfl
      · have hlt := (List.pairwise_cons.1 horder).1 _ hrest
        simp at hlt

theorem Lists.first? (h : s.Lists colours) : s.first? = colours.head? := by
  rw [Swatch.first?, h.head?]
  cases colours with
  | nil => rfl
  | cons c colours => simp [Colour.ofHex_hex, Except.toOption]

end Swatch

theorem Pixel.identifier_inj {p q : Pixel} : p.identifier = q.identifier ↔ p.colour = q.colour := by
  unfold identifier
  rw [String.append_right_inj]
  exact Colour.hex_injective.eq_iff

/-- **Hex texts stand for colours.** A written colour reads back, so no two colours are written
alike, as hex texts or as identifiers. The swatch of some colours holds these and no others: it has
each of them once, in the order of first mention, and the first is the first of the colours. -/
theorem Colour.hex_identity :
    (∀ c : Colour, ofHex c.hex = .ok c ∧ ofHex c.display = .ok c) ∧
      Function.Injective Colour.hex ∧
      (∀ p q : Pixel, p.identifier = q.identifier ↔ p.colour = q.colour) ∧
      ∀ colours : List Colour,
        (∀ c, (Swatch.ofColours colours).holds c ↔ c ∈ colours) ∧
          (Swatch.ofColours colours).hexes.Nodup ∧
          (Swatch.ofColours colours).Lists colours ∧
          (Swatch.ofColours colours).first? = colours.head? := by
  refine ⟨fun c => ⟨c.ofHex_hex, c.ofHex_display⟩, hex_injective,
    fun p q => Pixel.identifier_inj, fun colours => ?_⟩
  have hlists := Swatch.lists_ofColours colours
  exact ⟨hlists.holds_iff, hlists.nodup, hlists, hlists.first?⟩

end PixelLang
