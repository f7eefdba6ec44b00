import Mathlib.Data.List.Forall2
import PixelLang.Colour

/-!
# The forms of a hex text

A colour is written as `RGB`, `RGBA`, `RRGGBB` or `RRGGBBAA`. What the digits mean is told here by
the channels: a long form spells the two digits of every channel (`Text.Hex.nibbles`), and each
digit of a short form stands for two.

Route. A short form is read one character for each channel, a long form two (`Pairs`). A channel is
known by its two digits, so both are equations between the values of the characters and the digits
of the channels (`forall₂_readDigit_iff`, `pairs_iff`). The two readers differ in one thing: a pair
may also be a plus sign and a digit, which is read as if the sign were a zero.

* `Colour.isBody_hexBody`: what is left of a text without the blanks around it and the `#`.
* `Colour.ofHex_eq_ok_iff`: which texts are read as a colour.
* `Colour.ofHex_accepts`: the texts that are read are those of the four forms, and the long ones in
  which a plus sign stands for the first digit of a channel.
-/

set_option autoImplicit false

namespace PixelLang

namespace Text

/-! ## The text between the blanks -/

/-- What stands between the blanks around a text. -/
structure IsTrim (text inner : List Char) : Prop where
  around : ∃ before after, text = before ++ inner ++ after ∧ ∀ ch ∈ before ++ after, isBlank ch
  head : ∀ ch, inner.head? = some ch → isBlank ch = false
  last : ∀ ch, inner.getLast? = some ch → isBlank ch = false

theorem isBlank_head_dropWhile {cs : List Char} {ch : Char}
    (h : (cs.dropWhile isBlank).head? = some ch) : isBlank ch = false := by
  have hhead := List.head?_dropWhile_not isBlank cs
  rw [h] at hhead
  simpa using hhead

theorem trimEnd_append (cs : List Char) :
    trimEnd cs ++ (cs.reverse.takeWhile isBlank).reverse = cs := by
  rw [trimEnd, ← List.reverse_append, List.takeWhile_append_dropWhile, List.reverse_reverse]

theorem isTrim_trim (cs : List Char) : IsTrim cs (trim cs) where
  around := by
    refine ⟨cs.takeWhile isBlank, ((cs.dropWhile isBlank).reverse.takeWhile isBlank).reverse,
      ?_, fun ch hch => ?_⟩
    · rw [List.append_assoc, trim, trimEnd_append, List.takeWhile_append_dropWhile]
    · rcases List.mem_append.1 hch with hch | hch
      · exact List.all_eq_true.1 List.all_takeWhile ch hch
      · exact List.all_eq_true.1 List.all_takeWhile ch (List.mem_reverse.1 hch)
  head ch hch := by
    -- blanks are taken from the end last, and what is left then keeps its first character
    have hhead : (cs.dropWhile isBlank).head? = some ch := by
      rw [← trimEnd_append (cs.dropWhile isBlank), List.head?_append, ← trim, hch]
      rfl
    exact isBlank_head_dropWhile hhead
  last ch hch := by
    rw [trim, trimEnd, List.getLast?_reverse] at hch
    exact isBlank_head_dropWhile hch

end Text

namespace Text.Hex

/-- A hexadecimal digit of either case. -/
def IsDigit (ch : Char) : Prop :=
  ('0' ≤ ch ∧ ch ≤ '9') ∨ ('A' ≤ ch ∧ ch ≤ 'F') ∨ ('a' ≤ ch ∧ ch ≤ 'f')

instance (ch : Char) : Decidable (IsDigit ch) := inferInstanceAs (Decidable (_ ∨ _ ∨ _))

/-- The values of the two digits of a byte. -/
def nibbles (b : UInt8) : List Nat := [b.toNat / 16, b.toNat % 16]

theorem isDigit_iff {ch : Char} :
    IsDigit ch ↔ (48 ≤ ch.toNat ∧ ch.toNat ≤ 57) ∨ (65 ≤ ch.toNat ∧ ch.toNat ≤ 70) ∨
      (97 ≤ ch.toNat ∧ ch.toNat ≤ 102) := Iff.rfl

theorem exists_value?_iff {ch : Char} : (∃ n, value? ch = some n) ↔ IsDigit ch := by
  rw [isDigit_iff]
  simp only [value?]
  split_ifs <;> simp <;> omega

theorem value?_lt {ch : Char} {n : Nat} (h : value? ch = some n) : n < 16 := by
  grind [value?]

/-- A byte is known by the values of its two digits. -/
theorem nibbles_eq_iff {b : UInt8} {m n : Nat} (hm : m < 16) (hn : n < 16) :
    nibbles b = [m, n] ↔ UInt8.ofNat (16 * m + n) = b := by
  have hb := b.toNat_lt
  have hvalue : (UInt8.ofNat (16 * m + n)).toNat = 16 * m + n :=
    UInt8.toNat_ofNat_of_lt' (by simp only [UInt8.size]; omega)
  rw [← UInt8.toNat_inj, hvalue]
  simp only [nibbles, List.cons.injEq, and_true]
  omega

end Text.Hex

namespace Colour

open Text.Hex

/-! ## One channel -/

/-- The character with a plus sign read as a zero. -/
def unsigned (ch : Char) : Char := if ch = '+' then '0' else ch

theorem unsigned_of_isDigit {ch : Char} (h : IsDigit ch) : unsigned ch = ch := by
  have hne : ch ≠ '+' := by
    rintro rfl
    exact absurd h (by decide)
  exact if_neg hne

theorem readDigit_eq_ok_iff {ch : Char} {b : UInt8} :
    readDigit ch = .ok b ↔ ∃ n, value? ch = some n ∧ nibbles b = [n, n] := by
  unfold readDigit
  cases hvalue : value? ch with
  | none => simp
  | some n =>
    have hn := value?_lt hvalue
    have hdouble : 16 * n + n = 17 * n := by omega
    simp [nibbles_eq_iff hn hn, hdouble]

theorem readPair_eq_ok_iff {high low : Char} {b : UInt8} :
    readPair high low = .ok b ↔
      ∃ m n, value? (unsigned high) = some m ∧ value? low = some n ∧ nibbles b = [m, n] := by
  have hzero : value? '0' = some 0 := rfl
  unfold readPair unsigned
  by_cases hsign : high = '+'
  · cases hlow : value? low with
    | none => simp [hsign]
    | some n => simp [hsign, hzero, nibbles_eq_iff (m := 0) (by omega) (value?_lt hlow)]
  · cases hhigh : value? high with
    | none => simp [hsign, hhigh]
    | some m =>
      cases hlow : value? low with
      | none => simp [hsign, hhigh]
      | some n => simp [hsign, hhigh, nibbles_eq_iff (value?_lt hhigh) (value?_lt hlow)]

/-! ## All channels -/

/-- The characters spell the channels, two characters each. -/
inductive Pairs : List Char → List UInt8 → Prop
  | nil : Pairs [] []
  | cons {high low : Char} {b : UInt8} {rest : List Char} {bs : List UInt8} :
      readPair high low = .ok b → Pairs rest bs → Pairs (high :: low :: rest) (b :: bs)

/-- The channels are those that a form of the colour gives; the alpha is left out only where it is
full. -/
def IsForm (c : Colour) (channels : List UInt8) : Prop :=
  (channels = [c.red, c.green, c.blue] ∧ c.alpha = 255) ∨
    channels = [c.red, c.green, c.blue, c.alpha]

theorem bind_eq_ok_iff {α β : Type} {x : Except HexFault α} {f : α → Except HexFault β} {b : β} :
    (x >>= f) = .ok b ↔ ∃ a, x = .ok a ∧ f a = .ok b := by
  cases x <;> simp [bind, Except.bind]

/-- **A text is a colour if its characters spell the channels of a form**, one character for each
channel or two. -/
theorem ofDigits_eq_ok_iff {text digits : List Char} {c : Colour} :
    ofDigits text digits = .ok c ↔
      ∃ channels, c.IsForm channels ∧
        (List.Forall₂ (fun ch b => readDigit ch = .ok b) digits channels ∨
          Pairs digits channels) := by
  obtain ⟨red, green, blue, alpha⟩ := c
  constructor
  · intro h
    fun_cases ofDigits text digits with
    | case1 r g b =>
      simp only [ofDigits, bind_eq_ok_iff, pure, Except.pure, Except.ok.injEq, mk.injEq] at h
      obtain ⟨_, hr, _, hg, _, hb, rfl, rfl, rfl, rfl⟩ := h
      exact ⟨_, .inl ⟨rfl, rfl⟩, .inl (.cons hr (.cons hg (.cons hb .nil)))⟩
    | case2 r g b a =>
      simp only [ofDigits, bind_eq_ok_iff, pure, Except.pure, Except.ok.injEq, mk.injEq] at h
      obtain ⟨_, hr, _, hg, _, hb, _, ha, rfl, rfl, rfl, rfl⟩ := h
      exact ⟨_, .inr rfl, .inl (.cons hr (.cons hg (.cons hb (.cons ha .nil))))⟩
    | case3 r₁ r₀ g₁ g₀ b₁ b₀ =>
      simp only [ofDigits, bind_eq_ok_iff, pure, Except.pure, Except.ok.injEq, mk.injEq] at h
      obtain ⟨_, hr, _, hg, _, hb, rfl, rfl, rfl, rfl⟩ := h
      exact ⟨_, .inl ⟨rfl, rfl⟩, .inr (.cons hr (.cons hg (.cons hb .nil)))⟩
    | case4 r₁ r₀ g₁ g₀ b₁ b₀ a₁ a₀ =>
      simp only [ofDigits, bind_eq_ok_iff, pure, Except.pure, Except.ok.injEq, mk.injEq] at h
      obtain ⟨_, hr, _, hg, _, hb, _, ha, rfl, rfl, rfl, rfl⟩ := h
      exact ⟨_, .inr rfl, .inr (.cons hr (.cons hg (.cons hb (.cons ha .nil))))⟩
    | case5 => simp [ofDigits] at h
  · rintro ⟨channels, ⟨rfl, halpha⟩ | rfl, hread | hread⟩
    · obtain _ | ⟨hr, _ | ⟨hg, _ | ⟨hb, _ | _⟩⟩⟩ := hread
      cases halpha
      simp [ofDigits, hr, hg, hb, bind, Except.bind, pure, Except.pure]
    · obtain _ | ⟨hr, _ | ⟨hg, _ | ⟨hb, _ | _⟩⟩⟩ := hread
      cases halpha
      simp [ofDigits, hr, hg, hb, bind, Except.bind, pure, Except.pure]
    · obtain _ | ⟨hr, _ | ⟨hg, _ | ⟨hb, _ | ⟨ha, _ | _⟩⟩⟩⟩ := hread
      simp [ofDigits, hr, hg, hb, ha, bind, Except.bind, pure, Except.pure]
    · obtain _ | ⟨hr, _ | ⟨hg, _ | ⟨hb, _ | ⟨ha, _ | _⟩⟩⟩⟩ := hread
      simp [ofDigits, hr, hg, hb, ha, bind, Except.bind, pure, Except.pure]

/-! ## Values of digits -/

/-- The values of the digits are those of the channels. Each digit of a short form counts twice. -/
def Spelled (digits : List Char) (c : Colour) : Prop :=
  ∃ values channels, digits.map value? = values.map some ∧ c.IsForm channels ∧
    (if digits.length ≤ 4 then values.flatMap fun v => [v, v] else values) =
      channels.flatMap nibbles

/-- A plus sign stands only in a long form, for the first digit of a channel. -/
def SignsLead (digits : List Char) : Prop :=
  ∀ i : Nat, digits[i]? = some '+' → i % 2 = 0 ∧ 4 < digits.length

theorem forall₂_readDigit_iff {digits : List Char} {channels : List UInt8} :
    List.Forall₂ (fun ch b => readDigit ch = .ok b) digits channels ↔
      ∃ values : List Nat, digits.map value? = values.map some ∧
        (values.flatMap fun v => [v, v]) = channels.flatMap nibbles := by
  constructor
  · intro h
    induction h with
    | nil => exact ⟨[], rfl, rfl⟩
    | @cons ch b digits channels hread _ ih =>
      obtain ⟨n, hvalue, hb⟩ := readDigit_eq_ok_iff.1 hread
      obtain ⟨values, hvalues, hchannels⟩ := ih
      exact ⟨n :: values, by simp [hvalue, hvalues], by simp [hb, hchannels]⟩
  · rintro ⟨values, hvalues, hchannels⟩
    induction channels generalizing digits values with
    | nil =>
      obtain rfl : values = [] := by cases values <;> simp_all
      simp_all
    | cons b channels ih =>
      obtain _ | ⟨n, values⟩ := values
      · simp [nibbles] at hchannels
      obtain _ | ⟨ch, digits⟩ := digits
      · simp at hvalues
      simp only [List.map_cons, List.cons.injEq] at hvalues
      simp only [List.flatMap_cons, nibbles, List.cons_append, List.nil_append,
        List.cons.injEq] at hchannels
      obtain ⟨hhigh, hlow, hrest⟩ := hchannels
      refine .cons (readDigit_eq_ok_iff.2 ⟨n, hvalues.1, ?_⟩) (ih values hvalues.2 hrest)
      rw [nibbles, ← hhigh, ← hlow]

theorem pairs_iff {digits : List Char} {channels : List UInt8} :
    Pairs digits channels ↔
      (∀ i : Nat, digits[i]? = some '+' → i % 2 = 0) ∧
        (digits.map unsigned).map value? = (channels.flatMap nibbles).map some := by
  constructor
  · intro h
    induction h with
    | nil => simp
    | @cons high low b digits channels hread _ ih =>
      -- only the second character of a pair has to be a digit as it stands
      obtain ⟨m, n, hhigh, hlow, hb⟩ := readPair_eq_ok_iff.1 hread
      have hdigit : IsDigit low := exists_value?_iff.1 ⟨n, hlow⟩
      refine ⟨?_, by simp [hhigh, unsigned_of_isDigit hdigit, hlow, hb, ← ih.2]⟩
      rintro (_ | _ | i) hi
      · rfl
      · obtain rfl : low = '+' := by simpa using hi
        exact absurd hdigit (by decide)
      · have := ih.1 i (by simpa using hi)
        omega
  · rintro ⟨hsigns, hvalues⟩
    induction channels generalizing digits with
    | nil =>
      obtain rfl : digits = [] := by simpa using hvalues
      exact .nil
    | cons b channels ih =>
      obtain _ | ⟨high, _ | ⟨low, digits⟩⟩ := digits
      · simp [nibbles] at hvalues
      · simp [nibbles] at hvalues
      simp only [List.flatMap_cons, nibbles, List.cons_append, List.nil_append, List.map_cons,
        List.cons.injEq] at hvalues
      obtain ⟨hhigh, hlow, hrest⟩ := hvalues
      have hsign : low ≠ '+' := by
        rintro rfl
        exact absurd (hsigns 1 rfl) (by decide)
      rw [unsigned, if_neg hsign] at hlow
      refine .cons (readPair_eq_ok_iff.2 ⟨_, _, hhigh, hlow, rfl⟩) (ih (fun i hi => ?_) hrest)
      have := hsigns (i + 2) (by simpa using hi)
      omega

theorem Pairs.length {digits : List Char} {channels : List UInt8} (h : Pairs digits channels) :
    digits.length = 2 * channels.length := by
  induction h with
  | nil => rfl
  | cons _ _ ih =>
    simp only [List.length_cons, ih]
    omega

theorem IsForm.length {c : Colour} {channels : List UInt8} (h : c.IsForm channels) :
    channels.length = 3 ∨ channels.length = 4 := by
  rcases h with ⟨rfl, -⟩ | rfl
  · exact .inl rfl
  · exact .inr rfl

/-! ## The whole text -/

/-- The characters of a text without the blanks around it and one `#` in front. -/
def hexBody (s : String) : List Char := dropHash (Text.trim s.toList)

/-- Between the blanks around the text stands the body, or a `#` and the body. -/
def IsBody (text body : List Char) : Prop :=
  ∃ inner, Text.IsTrim text inner ∧ (inner = '#' :: body ∨ (inner = body ∧ body.head? ≠ some '#'))

theorem eq_cons_dropHash_or (text : List Char) :
    text = '#' :: dropHash text ∨ (text = dropHash text ∧ (dropHash text).head? ≠ some '#') := by
  fun_cases dropHash text with
  | case1 rest => exact .inl rfl
  | case2 text hnone =>
    refine .inr ⟨rfl, fun hhead => ?_⟩
    obtain ⟨rest, hrest⟩ := List.head?_eq_some_iff.1 hhead
    exact hnone rest hrest

theorem isBody_hexBody (s : String) : IsBody s.toList (hexBody s) :=
  ⟨Text.trim s.toList, Text.isTrim_trim _, eq_cons_dropHash_or _⟩

theorem isDigit_of_map_value? {digits : List Char} {values : List Nat}
    (h : digits.map value? = values.map some) {ch : Char} (hch : ch ∈ digits) : IsDigit ch := by
  have hmem : value? ch ∈ values.map some := h ▸ List.mem_map_of_mem hch
  obtain ⟨n, -, hn⟩ := List.mem_map.1 hmem
  exact exists_value?_iff.1 ⟨n, hn.symm⟩

theorem length_of_map_value? {digits : List Char} {values : List Nat}
    (h : digits.map value? = values.map some) : digits.length = values.length := by
  simpa using congrArg List.length h

theorem map_unsigned {digits : List Char} (h : '+' ∉ digits) : digits.map unsigned = digits := by
  have hself : ∀ ch ∈ digits, unsigned ch = id ch := by
    intro ch hch
    refine if_neg fun hsign => h ?_
    rwa [hsign] at hch
  rw [List.map_congr_left hself, List.map_id]

theorem ofDigits_eq_ok_iff_spelled (text : List Char) {digits : List Char} {c : Colour} :
    ofDigits text digits = .ok c ↔ SignsLead digits ∧ Spelled (digits.map unsigned) c := by
  rw [ofDigits_eq_ok_iff]
  constructor
  · rintro ⟨channels, hform, hread | hread⟩
    · have hlength := hread.length_eq
      have hfew := hform.length
      obtain ⟨values, hvalues, hchannels⟩ := forall₂_readDigit_iff.1 hread
      have hsign : '+' ∉ digits := fun hmem =>
        absurd (isDigit_of_map_value? hvalues hmem) (by decide)
      refine ⟨fun i hi => absurd (List.mem_of_getElem? hi) hsign, values, channels, ?_, hform, ?_⟩
      · rw [map_unsigned hsign, hvalues]
      · rw [if_pos (by rw [List.length_map]; omega), hchannels]
    · have hlength := hread.length
      have hfew := hform.length
      obtain ⟨hsigns, hvalues⟩ := pairs_iff.1 hread
      refine ⟨fun i hi => ⟨hsigns i hi, by omega⟩, _, channels, hvalues, hform, ?_⟩
      rw [if_neg (by rw [List.length_map]; omega)]
  · rintro ⟨hsigns, values, channels, hvalues, hform, hchannels⟩
    refine ⟨channels, hform, ?_⟩
    rw [List.length_map] at hchannels
    split at hchannels
    · rename_i hshort
      have hsign : '+' ∉ digits := fun hmem => by
        obtain ⟨i, hi⟩ := List.getElem?_of_mem hmem
        have := (hsigns i hi).2
        omega
      rw [map_unsigned hsign] at hvalues
      exact .inl (forall₂_readDigit_iff.2 ⟨values, hvalues, hchannels⟩)
    · exact .inr (pairs_iff.2 ⟨fun i hi => (hsigns i hi).1, hchannels ▸ hvalues⟩)

/-- **The texts that are read, with their colours.** -/
theorem ofHex_eq_ok_iff {s : String} {c : Colour} :
    ofHex s = .ok c ↔ SignsLead (hexBody s) ∧ Spelled ((hexBody s).map unsigned) c := by
  rw [← ofDigits_eq_ok_iff_spelled (Text.trim s.toList)]
  unfold ofHex
  dsimp only
  split
  · rfl
  · rename_i hascii
    -- a text that is not ASCII is refused before its digits are read, and spells nothing
    refine iff_of_false nofun fun hok => hascii (List.all_eq_true.2 fun ch hch => ?_)
    obtain ⟨-, values, -, hvalues, -⟩ := (ofDigits_eq_ok_iff_spelled _).1 hok
    have hdigit := isDigit_of_map_value? hvalues (List.mem_map_of_mem hch)
    by_cases hsign : ch = '+'
    · rw [hsign]
      decide
    · rw [unsigned, if_neg hsign, isDigit_iff] at hdigit
      exact decide_eq_true (by omega)

/-! ## The four forms -/

/-- The text is one of the four forms: three, four, six or eight digits. -/
def IsPlain (digits : List Char) : Prop :=
  digits.length ∈ [3, 4, 6, 8] ∧ ∀ ch ∈ digits, IsDigit ch

/-- The text is a long form but for plus signs, each in place of the first digit of a channel. -/
def IsSigned (digits : List Char) : Prop :=
  digits.length ∈ [6, 8] ∧ '+' ∈ digits ∧
    ∀ (i : Nat) (ch : Char), digits[i]? = some ch → IsDigit ch ∨ (ch = '+' ∧ i % 2 = 0)

theorem length_flatMap_pair {α : Type} (f : α → List Nat) (hf : ∀ a, (f a).length = 2)
    (as : List α) : (as.flatMap f).length = 2 * as.length := by
  induction as with
  | nil => rfl
  | cons a as ih =>
    rw [List.flatMap_cons, List.length_append, hf, ih, List.length_cons]
    omega

theorem exists_values {digits : List Char} (h : ∀ ch ∈ digits, IsDigit ch) :
    ∃ values : List Nat, digits.map value? = values.map some ∧ ∀ v ∈ values, v < 16 := by
  induction digits with
  | nil => exact ⟨[], rfl, nofun⟩
  | cons ch digits ih =>
    simp only [List.mem_cons, forall_eq_or_imp] at h
    obtain ⟨n, hn⟩ := exists_value?_iff.2 h.1
    obtain ⟨values, hvalues, hlt⟩ := ih h.2
    refine ⟨n :: values, by simp [hn, hvalues], ?_⟩
    simpa using ⟨value?_lt hn, hlt⟩

theorem exists_flatMap_nibbles (count : Nat) {values : List Nat}
    (hcount : values.length = 2 * count) (hlt : ∀ v ∈ values, v < 16) :
    ∃ channels : List UInt8, channels.length = count ∧ values = channels.flatMap nibbles := by
  induction count generalizing values with
  | zero => exact ⟨[], rfl, List.eq_nil_of_length_eq_zero hcount⟩
  | succ count ih =>
    obtain _ | ⟨m, _ | ⟨n, values⟩⟩ := values
    · simp at hcount
    · simp only [List.length_cons, List.length_nil] at hcount
      omega
    simp only [List.length_cons] at hcount
    simp only [List.mem_cons, forall_eq_or_imp] at hlt
    obtain ⟨hm, hn, hlt⟩ := hlt
    obtain ⟨channels, hchannels, rfl⟩ := ih (by omega) hlt
    refine ⟨UInt8.ofNat (16 * m + n) :: channels, by simp [hchannels], ?_⟩
    rw [List.flatMap_cons, (nibbles_eq_iff hm hn).2 rfl]
    rfl

theorem exists_isForm {channels : List UInt8} (h : channels.length = 3 ∨ channels.length = 4) :
    ∃ c : Colour, c.IsForm channels := by
  rcases h with h | h
  · obtain ⟨r, g, b, rfl⟩ := List.length_eq_three.1 h
    exact ⟨⟨r, g, b, 255⟩, .inl ⟨rfl, rfl⟩⟩
  · obtain ⟨r, g, b, a, rfl⟩ := List.length_eq_four.1 h
    exact ⟨⟨r, g, b, a⟩, .inr rfl⟩

theorem exists_isForm_flatMap {values : List Nat} (hlt : ∀ v ∈ values, v < 16)
    (hlength : values.length = 6 ∨ values.length = 8) :
    ∃ (c : Colour) (channels : List UInt8), c.IsForm channels ∧
      values = channels.flatMap nibbles := by
  obtain ⟨channels, hcount, hvalues⟩ :=
    exists_flatMap_nibbles (values.length / 2) (by omega) hlt
  obtain ⟨c, hform⟩ := exists_isForm (show channels.length = 3 ∨ channels.length = 4 by omega)
  exact ⟨c, channels, hform, hvalues⟩

/-- The four forms are the texts that spell a colour. -/
theorem exists_spelled_iff {digits : List Char} : (∃ c, Spelled digits c) ↔ IsPlain digits := by
  constructor
  · rintro ⟨c, values, channels, hvalues, hform, hchannels⟩
    refine ⟨?_, fun ch hch => isDigit_of_map_value? hvalues hch⟩
    have hlength := length_of_map_value? hvalues
    have hcount := congrArg List.length hchannels
    have hfew := hform.length
    rw [length_flatMap_pair nibbles fun _ => rfl] at hcount
    simp only [List.mem_cons, List.not_mem_nil, or_false]
    split at hcount
    · rw [length_flatMap_pair _ fun _ => rfl] at hcount
      omega
    · omega
  · rintro ⟨hlength, hdigits⟩
    obtain ⟨values, hvalues, hlt⟩ := exists_values hdigits
    have hcount := length_of_map_value? hvalues
    simp only [List.mem_cons, List.not_mem_nil, or_false] at hlength
    by_cases hshort : digits.length ≤ 4
    · -- the values of a short form, each taken twice, are those of a long one
      have hdouble := length_flatMap_pair (fun v => [v, v]) (fun _ => rfl) values
      have hltDouble : ∀ v ∈ values.flatMap fun v => [v, v], v < 16 := by
        intro v hv
        obtain ⟨w, hw, hmem⟩ := List.mem_flatMap.1 hv
        obtain rfl : v = w := by simpa using hmem
        exact hlt v hw
      obtain ⟨c, channels, hform, hchannels⟩ := exists_isForm_flatMap hltDouble (by omega)
      exact ⟨c, values, channels, hvalues, hform, by rw [if_pos hshort, hchannels]⟩
    · obtain ⟨c, channels, hform, hchannels⟩ := exists_isForm_flatMap hlt (by omega)
      exact ⟨c, values, channels, hvalues, hform, by rw [if_neg hshort, hchannels]⟩

theorem IsPlain.not_mem {digits : List Char} (h : IsPlain digits) : '+' ∉ digits := fun hmem =>
  absurd (h.2 '+' hmem) (by decide)

theorem IsSigned.signsLead {digits : List Char} (h : IsSigned digits) : SignsLead digits := by
  obtain ⟨hlength, -, hdigits⟩ := h
  simp only [List.mem_cons, List.not_mem_nil, or_false] at hlength
  intro i hi
  rcases hdigits i '+' hi with hdigit | ⟨-, heven⟩
  · exact absurd hdigit (by decide)
  · exact ⟨heven, by omega⟩

theorem IsSigned.map_unsigned {digits : List Char} (h : IsSigned digits) :
    IsPlain (digits.map unsigned) := by
  obtain ⟨hlength, -, hdigits⟩ := h
  simp only [List.mem_cons, List.not_mem_nil, or_false] at hlength
  refine ⟨?_, fun ch hch => ?_⟩
  · simp only [List.length_map, List.mem_cons, List.not_mem_nil, or_false]
    omega
  · obtain ⟨ch, hmem, rfl⟩ := List.mem_map.1 hch
    obtain ⟨i, hi⟩ := List.getElem?_of_mem hmem
    rcases hdigits i ch hi with hdigit | ⟨rfl, -⟩
    · rwa [unsigned_of_isDigit hdigit]
    · decide

/-- A text that is a form once its plus signs count as zeros is a form as it stands, if it has
none, and a signed one otherwise. -/
theorem isPlain_or_isSigned {digits : List Char} (hsigns : SignsLead digits)
    (h : IsPlain (digits.map unsigned)) : IsPlain digits ∨ IsSigned digits := by
  by_cases hmem : '+' ∈ digits
  · right
    obtain ⟨hlength, hdigits⟩ := h
    obtain ⟨i, hi⟩ := List.getElem?_of_mem hmem
    have hlong := (hsigns i hi).2
    simp only [List.length_map, List.mem_cons, List.not_mem_nil, or_false] at hlength
    refine ⟨by simp only [List.mem_cons, List.not_mem_nil, or_false]; omega, hmem, ?_⟩
    intro j ch hj
    by_cases hsign : ch = '+'
    · exact .inr ⟨hsign, (hsigns j (hsign ▸ hj)).1⟩
    · have hdigit := hdigits _ (List.mem_map_of_mem (List.mem_of_getElem? hj))
      rw [unsigned, if_neg hsign] at hdigit
      exact .inl hdigit
  · rw [Colour.map_unsigned hmem] at h
    exact .inl h

theorem ofHex_eq_ok_iff_form {s : String} {c : Colour} :
    ofHex s = .ok c ↔
      (IsPlain (hexBody s) ∧ Spelled (hexBody s) c) ∨
        (IsSigned (hexBody s) ∧ Spelled ((hexBody s).map unsigned) c) := by
  rw [ofHex_eq_ok_iff]
  constructor
  · rintro ⟨hsigns, hspelled⟩
    rcases isPlain_or_isSigned hsigns (exists_spelled_iff.1 ⟨c, hspelled⟩) with hplain | hsigned
    · rw [map_unsigned hplain.not_mem] at hspelled
      exact .inl ⟨hplain, hspelled⟩
    · exact .inr ⟨hsigned, hspelled⟩
  · rintro (⟨hplain, hspelled⟩ | ⟨hsigned, hspelled⟩)
    · refine ⟨fun i hi => absurd (List.mem_of_getElem? hi) hplain.not_mem, ?_⟩
      rwa [map_unsigned hplain.not_mem]
    · exact ⟨hsigned.signsLead, hspelled⟩

theorem exists_ofHex_iff {s : String} :
    (∃ c, ofHex s = .ok c) ↔ IsPlain (hexBody s) ∨ IsSigned (hexBody s) := by
  constructor
  · rintro ⟨c, hc⟩
    exact (ofHex_eq_ok_iff_form.1 hc).imp And.left And.left
  · rintro (hplain | hsigned)
    · obtain ⟨c, hc⟩ := exists_spelled_iff.2 hplain
      exact ⟨c, ofHex_eq_ok_iff_form.2 (.inl ⟨hplain, hc⟩)⟩
    · obtain ⟨c, hc⟩ := exists_spelled_iff.2 hsigned.map_unsigned
      exact ⟨c, ofHex_eq_ok_iff_form.2 (.inr ⟨hsigned, hc⟩)⟩

/-- **What is read as a colour.** Blanks around the text and one `#` in front do not count. A text
is read if it is one of the four forms, and also if it is a long form in which plus signs stand for
first digits of channels; the four forms are the whole grammar where there are no such signs. The
colour is the one that the digits spell, where a plus sign counts as a zero. -/
theorem ofHex_accepts (s : String) :
    IsBody s.toList (hexBody s) ∧
      ((∃ c, ofHex s = .ok c) ↔ IsPlain (hexBody s) ∨ IsSigned (hexBody s)) ∧
      (((∃ c, ofHex s = .ok c) ↔ IsPlain (hexBody s)) ↔ ¬IsSigned (hexBody s)) ∧
      ∀ c, ofHex s = .ok c ↔
        (IsPlain (hexBody s) ∧ Spelled (hexBody s) c) ∨
          (IsSigned (hexBody s) ∧ Spelled ((hexBody s).map unsigned) c) := by
  have hdisjoint : IsPlain (hexBody s) → ¬IsSigned (hexBody s) := fun hplain hsigned =>
    hplain.not_mem hsigned.2.1
  refine ⟨isBody_hexBody s, exists_ofHex_iff, ?_, fun c => ofHex_eq_ok_iff_form⟩
  rw [exists_ofHex_iff]
  tauto

example : ofHex " #+1+2+3" = .ok ⟨1, 2, 3, 255⟩ := by decide

example : ofHex "#+12" = .error (.badDigit '+') := by decide

end Colour

end PixelLang
