import PixelLang.Proofs.Calls
import PixelLang.Proofs.Codes
import PixelLang.Proofs.Spelling

/-!
# String literals

A string is written with escapes, so that its text can be read back from the code: a quote in it
does not end the literal, a dollar does not start a name, and what follows an escape does not belong
to it.

* `Literal.decode`: what a string literal stands for, by the rules of the language it is written in.
* `Literal.decodeText_pieces`: the code of characters and names decodes to them.
* `Reader.stringParts_pieces`: the parts of a string hold what its pixels stand for.
* `decode_string`: strings survive in the code.
-/

set_option autoImplicit false

namespace PixelLang

/-! ## Decoding -/

/-- The number that hexadecimal digits spell, the highest first. -/
def Text.Hex.number? (digits : List Char) : Option Nat :=
  digits.foldlM (fun n c => (value? c).map (16 * n + ·)) 0

/-- What stands in a string literal: a character, or a name whose value is put in. -/
inductive Piece
  | char (c : Char)
  | reference (name : String)
deriving DecidableEq

namespace Literal

/-- The character that a backslash and a letter stand for. -/
def unescape? : Char → Option Char
  | '"' => some '"'
  | '\\' => some '\\'
  | '$' => some '$'
  | 'n' => some '\n'
  | 'r' => some '\r'
  | 't' => some '\t'
  | _ => none

/-- The character of a code in hexadecimal digits. -/
def charOfDigits? (digits : List Char) : Option Char :=
  (Text.Hex.number? digits).bind fun n => if n.isValidChar then some (Char.ofNat n) else none

mutual

/-- The pieces of a literal after its opening quote. The closing quote is the last character. -/
def decodeText : List Char → Option (List Piece)
  | [] => none
  | '"' :: rest => if rest.isEmpty then some [] else none
  | '\\' :: 'u' :: a :: b :: c :: d :: rest =>
    (charOfDigits? [a, b, c, d]).bind fun c => (decodeText rest).map (.char c :: ·)
  | '\\' :: e :: rest => (unescape? e).bind fun c => (decodeText rest).map (.char c :: ·)
  | ['\\'] => none
  | '$' :: '\x7b' :: rest => decodeName [] rest
  | c :: rest => (decodeText rest).map (.char c :: ·)

/-- The pieces of a literal inside a reference, whose name starts with `name`. -/
def decodeName (name : List Char) : List Char → Option (List Piece)
  | [] => none
  | '\x7d' :: rest => (decodeText rest).map (.reference (String.ofList name) :: ·)
  | c :: rest => decodeName (name ++ [c]) rest

end

/-- The pieces of a string literal. -/
def decode (code : String) : Option (List Piece) :=
  match code.toList with
  | '"' :: rest => decodeText rest
  | _ => none

end Literal

namespace Piece

/-- A piece as it stands in a string literal. -/
def code : Piece → List Char
  | char c => Expression.escape c
  | reference name => Expression.partCode (.reference name)

end Piece

theorem Text.Hex.number?_padded {n : Nat} (h : n < 65536) : number? (padded 4 n) = some n := by
  have hdigit (m : Nat) : value? (digit (m % 16)) = some (m % 16) :=
    value?_digit (m % 16) (Nat.mod_lt m (by decide))
  simp only [padded, number?, List.nil_append, List.cons_append, List.foldlM_cons, List.foldlM_nil,
    hdigit, Option.map_some, Option.bind_eq_bind, Option.bind_some, Option.pure_def,
    Option.some.injEq]
  omega

namespace Literal

theorem charOfDigits?_padded {c : Char} (h : c.toNat < 65536) :
    charOfDigits? (Text.Hex.padded 4 c.toNat) = some c := by
  have hvalid : c.toNat.isValidChar := c.valid
  rw [charOfDigits?, Text.Hex.number?_padded h, Option.bind_some, if_pos hvalid, Char.ofNat_toNat]

theorem decodeText_backslash {e c : Char} (h : unescape? e = some c) (rest : List Char) :
    decodeText ('\\' :: e :: rest) = (decodeText rest).map (.char c :: ·) := by
  rw [decodeText, h, Option.bind_some]
  rintro a b c' d rest' rfl -
  contradiction

theorem decodeText_digits {digits : List Char} {c : Char} (hlength : digits.length = 4)
    (h : charOfDigits? digits = some c) (rest : List Char) :
    decodeText ('\\' :: 'u' :: digits ++ rest) = (decodeText rest).map (.char c :: ·) := by
  obtain ⟨a, b, c', d, rfl⟩ := List.length_eq_four.1 hlength
  simp [decodeText, h]

theorem decodeText_plain {c : Char} (hquote : c ≠ '"') (hbackslash : c ≠ '\\') (hdollar : c ≠ '$')
    (rest : List Char) : decodeText (c :: rest) = (decodeText rest).map (.char c :: ·) := by
  rw [decodeText] <;> simp_all

/-- A character is written as an escape of a letter, by its code, or as it is. -/
theorem escape_cases (c : Char) :
    (∃ e, Expression.escape c = ['\\', e] ∧ unescape? e = some c) ∨
      (Expression.isControl c ∧
        Expression.escape c = '\\' :: 'u' :: Text.Hex.padded 4 c.toNat) ∨
      (Expression.isControl c = false ∧ c ≠ '"' ∧ c ≠ '\\' ∧ c ≠ '$' ∧
        Expression.escape c = [c]) := by
  by_cases hletter : c ∈ ['"', '\\', '$', '\n', '\r', '\t']
  · left
    simp only [List.mem_cons, List.not_mem_nil, or_false] at hletter
    rcases hletter with rfl | rfl | rfl | rfl | rfl | rfl <;> exact ⟨_, rfl, rfl⟩
  · right
    simp only [List.mem_cons, List.not_mem_nil, or_false, not_or] at hletter
    cases hcontrol : Expression.isControl c with
    | true => exact .inl ⟨rfl, by simp [Expression.escape, hletter, hcontrol]⟩
    | false =>
      exact .inr ⟨rfl, hletter.1, hletter.2.1, hletter.2.2.1,
        by simp [Expression.escape, hletter, hcontrol]⟩

/-- No control character stands in an escape. -/
theorem not_isControl_of_mem_escape {c d : Char} (h : d ∈ Expression.escape c) :
    Expression.isControl d = false := by
  rcases escape_cases c with ⟨e, hcode, he⟩ | ⟨-, hcode⟩ | ⟨hplain, -, -, -, hcode⟩
  · rw [hcode] at h
    rcases List.mem_pair.1 h with rfl | rfl
    · rfl
    · unfold unescape? at he
      split at he <;> first | rfl | contradiction
  · rw [hcode, List.mem_cons, List.mem_cons] at h
    rcases h with rfl | rfl | h
    · rfl
    · rfl
    · obtain ⟨n, hn, rfl⟩ := Text.Hex.exists_digit_of_mem_padded h
      have hdigit := Text.isPlain_digit n hn
      simp only [Text.isPlain, Bool.and_eq_true, Bool.not_eq_true'] at hdigit
      exact hdigit.1
  · rw [hcode, List.mem_singleton] at h
    rwa [h]

/-- A character is read back from its escape, whatever follows. -/
theorem decodeText_escape (c : Char) (rest : List Char) :
    decodeText (Expression.escape c ++ rest) = (decodeText rest).map (.char c :: ·) := by
  rcases escape_cases c with ⟨e, hcode, he⟩ | ⟨hcontrol, hcode⟩ |
    ⟨-, hquote, hbackslash, hdollar, hcode⟩
  · rw [hcode]
    exact decodeText_backslash he rest
  · have hsmall : c.toNat < 65536 := by
      simp only [Expression.isControl, Bool.or_eq_true, Bool.and_eq_true,
        decide_eq_true_eq] at hcontrol
      omega
    rw [hcode]
    exact decodeText_digits rfl (charOfDigits?_padded hsmall) rest
  · rw [hcode]
    exact decodeText_plain hquote hbackslash hdollar rest

theorem decodeName_append {cs : List Char} (h : '\x7d' ∉ cs) (name rest : List Char) :
    decodeName name (cs ++ '\x7d' :: rest) =
      (decodeText rest).map (.reference (String.ofList (name ++ cs)) :: ·) := by
  induction cs generalizing name with
  | nil => simp [decodeName]
  | cons c cs ih =>
    have hc : c ≠ '\x7d' := fun hc => h (hc ▸ .head _)
    rw [List.cons_append, decodeName, ih fun hmem => h (.tail _ hmem)]
    · simp
    · exact fun h' => hc h'

theorem decodeText_reference {name : String} (h : '\x7d' ∉ name.toList) (rest : List Char) :
    decodeText (Piece.code (.reference name) ++ rest) =
      (decodeText rest).map (.reference name :: ·) := by
  have hname := decodeName_append h [] rest
  rw [List.nil_append, String.ofList_toList] at hname
  rw [← hname]
  simp [Piece.code, Expression.partCode, decodeText]

/-- The names that pieces refer to do not hold the character that ends a reference. -/
def Closed (pieces : List Piece) : Prop :=
  ∀ name : String, .reference name ∈ pieces → '\x7d' ∉ name.toList

/-- The code of pieces decodes to them. -/
theorem decodeText_pieces {pieces : List Piece} (h : Closed pieces) :
    decodeText (pieces.flatMap Piece.code ++ ['"']) = some pieces := by
  induction pieces with
  | nil => rfl
  | cons piece pieces ih =>
    have hrest := ih fun name hname => h name (.tail _ hname)
    rw [List.flatMap_cons, List.append_assoc]
    cases piece with
    | char c =>
      rw [Piece.code, decodeText_escape, hrest]
      rfl
    | reference name =>
      rw [decodeText_reference (h name (.head _)), hrest]
      rfl

end Literal

/-! ## Pieces of a string -/

/-- What a part of a string holds. -/
def StringPart.pieces : StringPart → List Piece
  | literal text => text.toList.map .char
  | reference code => [.reference code]

/-- What a pixel stands for in a string: its character, if the code is not zero, or its name. -/
def Scope.piece? (scope : Scope) (p : Pixel) : Option Piece :=
  match p.kind with
  | .character code => if code = 0 then none else some (.char (charOf code))
  | .boolean value => some (.reference (Expression.booleanCode value))
  | _ => (scope.get? p.hex).map fun m => .reference m.name

/-- The pixel can stand in a string: a character, a boolean, or a name that does not hold the
character that ends a reference. -/
def Scope.Quotable (scope : Scope) (p : Pixel) : Prop :=
  p.isCharacter ∨ p.isBoolean ∨ ∃ m, scope.Binds p m ∧ '\x7d' ∉ m.name.toList

theorem Expression.toList_stringCode (parts : List StringPart) :
    (stringCode parts).toList =
      '"' :: ((parts.flatMap StringPart.pieces).flatMap Piece.code ++ ['"']) := by
  have hpart (part : StringPart) : partCode part = part.pieces.flatMap Piece.code := by
    cases part <;> simp [partCode, StringPart.pieces, Piece.code, List.flatMap_map]
  rw [stringCode, String.toList_ofList, List.flatMap_assoc, funext hpart, List.cons_append]

theorem pieces_flushText (parts : List StringPart) (text : List Char) :
    (flushText parts text).flatMap StringPart.pieces =
      parts.flatMap StringPart.pieces ++ text.map .char := by
  rw [flushText]
  cases text <;> simp [StringPart.pieces]

section
variable {scope : Scope} {p : Pixel}

theorem piece?_character {code : UInt8} (h : p.character? = some code) :
    scope.piece? p = if code = 0 then none else some (.char (charOf code)) := by
  rw [Pixel.character?] at h
  rw [Scope.piece?]
  split at h <;> simp_all

/-- A pixel that starts a name stands for the name. -/
theorem piece?_name {name : String} (h : scope.nameOf? p = some name) :
    scope.piece? p = some (.reference name) := by
  rw [Scope.nameOf?, Pixel.boolean?, Scope.member?] at h
  rw [Scope.piece?]
  cases hkind : p.kind <;>
    simp_all [Pixel.isSymbol, Pixel.isLibrary, Pixel.library?]

/-- A pixel of a string that is no character has a name. -/
theorem exists_nameOf? (hp : p.isCharacter ∨ scope.Resolves p) (hchar : p.character? = none) :
    ∃ name, scope.nameOf? p = some name := by
  have hresolves : scope.Resolves p := hp.resolve_left (by simp [Pixel.isCharacter, hchar])
  exact Option.isSome_iff_exists.1 (Scope.resolves_iff.1 hresolves)

/-- The names in a string are those of booleans and of members. -/
theorem exists_of_reference {name : String} (hp : p.isCharacter ∨ scope.Resolves p)
    (h : scope.piece? p = some (.reference name)) :
    (∃ value, name = Expression.booleanCode value) ∨ ∃ m, scope.Binds p m ∧ name = m.name := by
  cases hchar : p.character? with
  | some code =>
    rw [piece?_character hchar] at h
    split at h <;> simp at h
  | none =>
    obtain ⟨name', hname⟩ := exists_nameOf? hp hchar
    rw [piece?_name hname] at h
    obtain rfl := Piece.reference.inj (Option.some.inj h)
    rw [Scope.nameOf?] at hname
    split at hname
    · exact .inl ⟨_, (Option.some.inj hname).symm⟩
    · obtain ⟨m, hm, rfl⟩ := Option.map_eq_some_iff.1 hname
      exact .inr ⟨m, Scope.binds_iff.2 hm, rfl⟩

theorem Scope.Quotable.resolves (h : scope.Quotable p) : p.isCharacter ∨ scope.Resolves p :=
  h.imp_right (Or.imp_right fun ⟨m, hm, _⟩ => ⟨m, hm⟩)

theorem Scope.Quotable.name_closed (h : scope.Quotable p) {m : Member} (hm : scope.Binds p m) :
    '\x7d' ∉ m.name.toList := by
  obtain ⟨hname, hbound⟩ := hm
  rcases h with hp | hp | ⟨m', ⟨-, hbound'⟩, hclosed⟩
  · cases hkind : p.kind <;>
      simp_all [Pixel.isCharacter, Pixel.character?, Pixel.isSymbol, Pixel.isLibrary,
        Pixel.library?]
  · cases hkind : p.kind <;>
      simp_all [Pixel.isBoolean, Pixel.boolean?, Pixel.isSymbol, Pixel.isLibrary, Pixel.library?]
  · rw [hbound'] at hbound
    rwa [← Option.some.inj hbound]

theorem isDot_of_resolves (h : p.isCharacter ∨ scope.Resolves p) : p.isDot = false := by
  simp only [Scope.Resolves, Scope.Binds] at h
  cases hkind : p.kind <;>
    simp_all [Pixel.isDot, Pixel.isCharacter, Pixel.character?, Pixel.isBoolean, Pixel.boolean?,
      Pixel.isSymbol, Pixel.isLibrary, Pixel.library?]

theorem dottedTail_of_head {pixels : List Pixel} (h : ∀ p ∈ pixels.head?, p.isDot = false) :
    dottedTail pixels = ⟨[], false⟩ := by
  cases pixels with
  | nil => rfl
  | cons p rest =>
    have hp := h p rfl
    cases rest <;> simp [dottedTail, hp]

end

namespace Reader

variable {scope : Scope}

/-- A name without dots is read as it stands. -/
theorem nextSequence_name {r : Reader} {p : Pixel} {rest : List Pixel} {name : String}
    (hps : r.remaining = p :: rest) (hdots : ∀ q ∈ rest.head?, q.isDot = false)
    (hname : scope.nameOf? p = some name) :
    ∃ t, r.nextSequence = (some ⟨p, []⟩, t) ∧ t.checkResolves scope p r.index = (true, t) ∧
      scope.sequenceCode ⟨p, []⟩ = name ∧ t.remaining = rest ∧ t.problems = r.problems := by
  obtain ⟨t, ht, hrest, hproblems⟩ := r.nextSequence_cons hps
  rw [dottedTail_of_head hdots] at ht hrest hproblems
  refine ⟨t, ht, ?_, ?_, hrest, by simpa using hproblems⟩
  · simp [checkResolves, hname]
  · simp [Scope.sequenceCode, Scope.firstCode, hname]

/-- A pixel is read as the piece it stands for. -/
theorem stringParts_step {r : Reader} {p : Pixel} {rest : List Pixel}
    (hps : r.remaining = p :: rest) (hp : p.isCharacter ∨ scope.Resolves p)
    (hdots : ∀ q ∈ rest.head?, q.isDot = false)
    (fuel : Nat) (parts : List StringPart) (text : List Char) :
    ∃ (s : Reader) (parts' : List StringPart) (text' : List Char),
      r.stringParts scope (fuel + 1) parts text = s.stringParts scope fuel parts' text' ∧
      s.remaining = rest ∧ s.problems = r.problems ∧
      parts'.flatMap StringPart.pieces ++ text'.map .char =
        parts.flatMap StringPart.pieces ++ text.map .char ++ (scope.piece? p).toList := by
  have hpeek : r.peek = some p := by rw [peek_eq_head?, hps]; rfl
  have hadvance : (r.advance 1).remaining = rest := by rw [remaining_advance, hps]; rfl
  cases hchar : p.character? with
  | some code =>
    have hpiece : scope.piece? p = _ := piece?_character hchar
    by_cases hzero : code = 0
    · refine ⟨r.advance 1, flushText parts text, [], ?_, hadvance, rfl, ?_⟩
      · simp [stringParts, hpeek, hchar, hzero]
      · simp [pieces_flushText, hpiece, hzero]
    · refine ⟨r.advance 1, parts, text ++ [charOf code], ?_, hadvance, rfl, ?_⟩
      · simp [stringParts, hpeek, hchar, hzero]
      · simp [hpiece, hzero]
  | none =>
    obtain ⟨name, hname⟩ := exists_nameOf? hp hchar
    obtain ⟨t, ht, hcheck, hcode, hleft, hquiet⟩ := nextSequence_name hps hdots hname
    refine ⟨t, flushText parts text ++ [.reference name], [], ?_, hleft, hquiet, ?_⟩
    · simp [stringParts, hpeek, hchar, ht, hcheck, hcode]
    · simp [pieces_flushText, StringPart.pieces, piece?_name hname]

/-- The parts of a string hold what its pixels stand for, in their order. -/
theorem stringParts_pieces (fuel : Nat) (parts : List StringPart) (text : List Char) {r : Reader}
    (hfuel : r.remaining.length ≤ fuel)
    (h : ∀ p ∈ r.remaining, p.isCharacter ∨ scope.Resolves p) :
    (r.stringParts scope fuel parts text).2.remaining = [] ∧
      (r.stringParts scope fuel parts text).2.problems = r.problems ∧
      (r.stringParts scope fuel parts text).1.flatMap StringPart.pieces =
        parts.flatMap StringPart.pieces ++ text.map .char ++
          r.remaining.filterMap scope.piece? := by
  induction fuel generalizing r parts text with
  | zero =>
    have hnil : r.remaining = [] := List.length_eq_zero_iff.1 (Nat.le_zero.1 hfuel)
    rw [stringParts, pieces_flushText, hnil]
    simp
  | succ fuel ih =>
    cases hps : r.remaining with
    | nil =>
      have hpeek : r.peek = none := by rw [peek_eq_head?, hps]; rfl
      simp [stringParts, hpeek, pieces_flushText, hps]
    | cons p rest =>
      rw [hps] at hfuel h
      obtain ⟨hp, hrest⟩ := List.forall_mem_cons.1 h
      obtain ⟨s, parts', text', hstep, hleft, hquiet, hpieces⟩ := stringParts_step hps hp
        (fun q hq => isDot_of_resolves (hrest q (List.mem_of_mem_head? hq))) fuel parts text
      obtain ⟨hend, hquiet', hpieces'⟩ := ih parts' text' (r := s)
        (by rw [hleft]; exact Nat.le_of_succ_le_succ hfuel) (by rwa [hleft])
      rw [hstep]
      refine ⟨hend, hquiet'.trans hquiet, ?_⟩
      rw [hpieces', hpieces, hleft, List.append_assoc]
      cases hpiece : scope.piece? p <;> simp [hpiece]

/-- A string of characters and names is written as the pieces they stand for, and nothing is
reported. -/
theorem eval_string {r : Reader} (hshape : r.analyze scope = .string)
    (h : ∀ p ∈ r.remaining, p.isCharacter ∨ scope.Resolves p) :
    (r.eval scope).2.diagnostics = r.diagnostics ∧
      (r.eval scope).1.code.toList =
        '"' :: ((r.remaining.filterMap scope.piece?).flatMap Piece.code ++ ['"']) := by
  obtain ⟨hend, hquiet, hpieces⟩ := stringParts_pieces r.remaining.length [] [] (Nat.le_refl _) h
  have hread : r.readShape scope (Reader.eval scope) (shapeOf scope r.remaining) =
      r.readString scope := by
    rw [analyze] at hshape
    rw [hshape, readShape]
  have hvalue : (r.eval scope).1 = (r.readString scope).1 := by
    rw [eval, hshape]
    rfl
  constructor
  · refine (sound_eval scope r).diagnostics_eq_iff.2 ((eval_quiet_iff scope r).2 ?_)
    rw [hread]
    exact ⟨hquiet, hend⟩
  · rw [hvalue, readString, Expression.code, Expression.toList_stringCode, hpieces]
    rfl

end Reader

/-- Only a bound name can bring a control character into the code. -/
theorem Scope.Quotable.code_of_piece {scope : Scope} {p : Pixel} (h : scope.Quotable p)
    {piece : Piece} (hpiece : scope.piece? p = some piece) :
    (∃ m, scope.Binds p m ∧ piece.code = Expression.partCode (.reference m.name)) ∨
      ∀ c ∈ piece.code, Expression.isControl c = false := by
  cases piece with
  | char c => exact .inr fun d hd => Literal.not_isControl_of_mem_escape hd
  | reference name =>
    rcases exists_of_reference h.resolves hpiece with ⟨value, rfl⟩ | ⟨m, hm, rfl⟩
    · have hnone : (Piece.reference (Expression.booleanCode value)).code.all
          (!Expression.isControl ·) = true := by cases value <;> decide
      exact .inr fun c hc => by simpa using List.all_eq_true.1 hnone c hc
    · exact .inl ⟨m, hm, rfl⟩

/-- **Strings survive in the code.** Where characters, booleans and bound names are read as a
string, nothing is reported, and the literal in the code decodes to the characters, those of code
zero left out, and to the names. The code is written pixel by pixel, and no control character stands
in it but in a bound name. -/
theorem decode_string (scope : Scope) {r : Reader} (hshape : r.analyze scope = .string)
    (hpixels : ∀ p ∈ r.remaining, scope.Quotable p) :
    (r.eval scope).2.diagnostics = r.diagnostics ∧
      Literal.decode (r.eval scope).1.code = some (r.remaining.filterMap scope.piece?) ∧
      ∃ code : Pixel → List Char,
        (r.eval scope).1.code.toList = '"' :: (r.remaining.flatMap code ++ ['"']) ∧
        ∀ p ∈ r.remaining,
          (∃ m, scope.Binds p m ∧ code p = Expression.partCode (.reference m.name)) ∨
            ∀ c ∈ code p, Expression.isControl c = false := by
  obtain ⟨hquiet, hcode⟩ := Reader.eval_string hshape fun p hp => (hpixels p hp).resolves
  refine ⟨hquiet, ?_, fun p => (scope.piece? p).toList.flatMap Piece.code, ?_, fun p hp => ?_⟩
  · rw [Literal.decode, hcode]
    refine Literal.decodeText_pieces fun name hname => ?_
    obtain ⟨p, hp, hpiece⟩ := List.mem_filterMap.1 hname
    rcases exists_of_reference (hpixels p hp).resolves hpiece with ⟨value, rfl⟩ | ⟨m, hm, rfl⟩
    · cases value <;> decide
    · exact (hpixels p hp).name_closed hm
  · rw [hcode, List.filterMap_eq_flatMap_toList, List.flatMap_assoc]
  · dsimp only
    cases hpiece : scope.piece? p with
    | none => exact .inr fun c hc => absurd hc List.not_mem_nil
    | some piece =>
      rw [Option.toList_some, List.flatMap_singleton]
      exact (hpixels p hp).code_of_piece hpiece

/-! A string that is hard to read back: a control character before a digit, the character of code
zero, a dollar before a brace, a boolean before a quote, and a name. -/

def characterPixel (x : Nat) (code : UInt8) : Pixel := ⟨.grey code, x, 0, .character code⟩

def literalReader : Reader :=
  .ofPixels none [characterPixel 0 1, characterPixel 1 55, characterPixel 2 0, characterPixel 3 36,
    characterPixel 4 123, ⟨⟨0, 0, 2, 255⟩, 5, 0, .boolean true⟩, characterPixel 6 34, objectPixel]

theorem decode_literalReader :
    literalReader.analyze methodScope = .string ∧
      (∀ p ∈ literalReader.remaining, methodScope.Quotable p) ∧
      (literalReader.eval methodScope).2.diagnostics = [] ∧
      Literal.decode (literalReader.eval methodScope).1.code =
        some [.char '\x01', .char '7', .char '$', .char '\x7b', .reference "true", .char '"',
          .reference "list"] := by
  have hshape : literalReader.analyze methodScope = .string := by decide +kernel
  have hpixels : ∀ p ∈ literalReader.remaining, methodScope.Quotable p := by
    have hobject : methodScope.Quotable objectPixel :=
      .inr (.inr ⟨.var "list", ⟨.inl rfl, by decide +kernel⟩, by decide⟩)
    have hkinds : ∀ p ∈ literalReader.remaining,
        p.isCharacter ∨ p.isBoolean ∨ p = objectPixel := by decide
    intro p hp
    rcases hkinds p hp with hcharacter | hboolean | rfl
    · exact .inl hcharacter
    · exact .inr (.inl hboolean)
    · exact hobject
  obtain ⟨hquiet, hdecode, -⟩ := decode_string methodScope hshape hpixels
  refine ⟨hshape, hpixels, hquiet, ?_⟩
  rw [hdecode]
  decide +kernel

/-! A name with a line feed. -/

def brokenName : Pixel := ⟨⟨240, 64, 128, 255⟩, 1, 0, .symbol⟩

def brokenScope : Scope := .ofGlobals ⟨[(brokenName.hex, .var "a\nb")]⟩

def brokenReader : Reader := .ofPixels none [characterPixel 0 65, brokenName]

/-- Names are put in as they are, with the control characters they hold. -/
theorem control_in_name :
    brokenReader.analyze brokenScope = .string ∧
      (∀ p ∈ brokenReader.remaining, brokenScope.Quotable p) ∧
      (brokenReader.eval brokenScope).1.code.toList.any Expression.isControl := by
  refine ⟨by decide +kernel, fun p hp => ?_, by decide +kernel⟩
  rcases List.mem_pair.1 hp with rfl | rfl
  · exact .inl rfl
  · exact .inr (.inr ⟨.var "a\nb", ⟨.inl rfl, by decide +kernel⟩, by decide⟩)

end PixelLang
