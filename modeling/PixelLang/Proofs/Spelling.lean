import PixelLang.Proofs.Codes
import PixelLang.Proofs.Texts

/-!
# What code is spelled with

Code is put together from fixed texts, from identifiers and numbers, from string literals with their
escapes, and from the names that libraries give to their functions. Only the last can hold any
character. An `Alphabet` has all characters that the others are written with; code is spelled with
it as soon as the names in scope are (`Alphabet.spells_generate`).

* `Language.spells_text`: the text of an entry is spelled with plain characters and with those of
  library targets, so it holds no line break that no target holds.
* `Visit.visible_text`: the text of an entry is not blank.
-/

set_option autoImplicit false

namespace PixelLang

open Reader

/-! ## Alphabets -/

/-- The characters that one byte can encode, apart from control characters. -/
def Text.isPlain (c : Char) : Bool := !Expression.isControl c && c.toNat < 256

theorem Text.isPlain_digit : ∀ n < 16, isPlain (Hex.digit n) = true := by decide

/-- A set of characters that has all plain ones. -/
structure Alphabet where
  mem : Char → Prop
  mem_of_plain {c : Char} : Text.isPlain c = true → mem c

namespace Alphabet

/-- All characters of the text are in the alphabet. -/
def Spells (A : Alphabet) (s : String) : Prop := ∀ c ∈ s.toList, A.mem c

variable {A : Alphabet} {s t : String}

theorem spells_plain (h : s.toList.all Text.isPlain = true) : A.Spells s :=
  fun c hc => A.mem_of_plain (List.all_eq_true.1 h c hc)

theorem Spells.append (hs : A.Spells s) (ht : A.Spells t) : A.Spells (s ++ t) := by
  intro c hc
  rw [String.toList_append, List.mem_append] at hc
  exact hc.elim (hs c) (ht c)

theorem spells_intercalate {texts : List String} (hs : A.Spells s)
    (h : ∀ text ∈ texts, A.Spells text) : A.Spells (s.intercalate texts) :=
  intercalate_of_append (spells_plain rfl) Spells.append hs h

theorem spells_identifier (p : Pixel) : A.Spells p.identifier := by
  refine (spells_plain rfl).append fun c hc => A.mem_of_plain ?_
  obtain ⟨n, hn, rfl⟩ := Colour.exists_digit_of_mem_hex hc
  exact Text.isPlain_digit n hn

end Alphabet

/-! ## Expressions -/

theorem Text.Hex.exists_digit_of_mem_padded {width n : Nat} {c : Char} (h : c ∈ padded width n) :
    ∃ m < 16, c = digit m := by
  induction width generalizing n with
  | zero => exact absurd h List.not_mem_nil
  | succ width ih =>
    rw [padded, List.mem_append, List.mem_singleton] at h
    rcases h with h | h
    · exact ih h
    · exact ⟨n % 16, Nat.mod_lt _ (by decide), h⟩

/-- A character is escaped with plain ones. -/
theorem Expression.isPlain_of_mem_escape {c d : Char} (hc : c.toNat < 256) (h : d ∈ escape c) :
    Text.isPlain d = true := by
  unfold escape at h
  split at h
  · exact List.all_eq_true.1 (by decide : ['\\', '"'].all Text.isPlain = true) d h
  split at h
  · exact List.all_eq_true.1 (by decide : ['\\', '\\'].all Text.isPlain = true) d h
  split at h
  · exact List.all_eq_true.1 (by decide : ['\\', '$'].all Text.isPlain = true) d h
  split at h
  · exact List.all_eq_true.1 (by decide : ['\\', 'n'].all Text.isPlain = true) d h
  split at h
  · exact List.all_eq_true.1 (by decide : ['\\', 'r'].all Text.isPlain = true) d h
  split at h
  · exact List.all_eq_true.1 (by decide : ['\\', 't'].all Text.isPlain = true) d h
  split at h
  · simp only [List.mem_cons] at h
    rcases h with rfl | rfl | h
    · decide
    · decide
    · obtain ⟨n, hn, rfl⟩ := Text.Hex.exists_digit_of_mem_padded h
      exact Text.isPlain_digit n hn
  · rename_i hcontrol
    obtain rfl := List.mem_singleton.1 h
    simpa [Text.isPlain, hcontrol] using hc

namespace Alphabet

open Expression

variable {A : Alphabet}

/-- The part of a string can be written with the alphabet, its text with escapes. -/
def SpellsPart (A : Alphabet) : StringPart → Prop
  | .literal text => ∀ c ∈ text.toList, c.toNat < 256
  | .reference code => A.Spells code

theorem spells_stringCode {parts : List StringPart} (h : ∀ part ∈ parts, A.SpellsPart part) :
    A.Spells (stringCode parts) := by
  have hquote : A.mem '"' := A.mem_of_plain rfl
  intro c hc
  rw [stringCode, String.toList_ofList, List.mem_append, List.mem_cons, List.mem_singleton,
    List.mem_flatMap] at hc
  rcases hc with (rfl | ⟨part, hpart, hc⟩) | rfl
  · exact hquote
  · have hspells := h part hpart
    cases part with
    | literal text =>
      obtain ⟨d, hd, hc⟩ := List.mem_flatMap.1 hc
      exact A.mem_of_plain (isPlain_of_mem_escape (hspells d hd) hc)
    | reference code =>
      simp only [partCode, List.cons_append, List.mem_cons, List.mem_append, List.not_mem_nil,
        or_false] at hc
      rcases hc with rfl | rfl | hc | rfl
      · exact A.mem_of_plain rfl
      · exact A.mem_of_plain rfl
      · exact hspells c hc
      · exact A.mem_of_plain rfl
  · exact hquote

/-- The names of all bound members are spelled with the alphabet. -/
def SpellsNames (A : Alphabet) (scope : Scope) : Prop :=
  scope.AllMembers fun m => A.Spells m.name

/-! Reading in a scope whose names are spelled with the alphabet. -/

section
variable {scope : Scope} (hscope : A.SpellsNames scope)
include hscope

theorem spells_named : scope.Named A.Spells where
  boolean value := by cases value <;> exact spells_plain rfl
  identifier := spells_identifier
  member := hscope.of_member?
  dotted := spells_intercalate (spells_plain rfl)

omit hscope in
theorem spells_flushText {parts : List StringPart} {text : List Char}
    (hparts : ∀ part ∈ parts, A.SpellsPart part) (htext : ∀ c ∈ text, c.toNat < 256) :
    ∀ part ∈ flushText parts text, A.SpellsPart part := by
  intro part hpart
  unfold flushText at hpart
  split at hpart
  · exact hparts part hpart
  · rcases List.mem_append.1 hpart with hpart | hpart
    · exact hparts part hpart
    · obtain rfl := List.mem_singleton.1 hpart
      simpa only [SpellsPart, String.toList_ofList] using htext

theorem spells_stringParts (fuel : Nat) {parts : List StringPart} {text : List Char} {r : Reader}
    (hparts : ∀ part ∈ parts, A.SpellsPart part) (htext : ∀ c ∈ text, c.toNat < 256) :
    ∀ part ∈ (r.stringParts scope fuel parts text).1, A.SpellsPart part := by
  induction fuel generalizing parts text r with
  | zero => exact spells_flushText hparts htext
  | succ fuel ih =>
    have hflushed := spells_flushText hparts htext
    have hnone : ∀ c ∈ ([] : List Char), c.toNat < 256 := fun _ h => absurd h List.not_mem_nil
    unfold stringParts
    cases r.peek with
    | none => exact hflushed
    | some p =>
      dsimp only
      cases p.character? with
      | some code =>
        dsimp only
        split
        · exact ih hflushed hnone
        · refine ih hparts fun c hc => ?_
          rcases List.mem_append.1 hc with hc | hc
          · exact htext c hc
          · obtain rfl := List.mem_singleton.1 hc
            exact toNat_charOf_lt code
      | none =>
        dsimp only
        rcases r.nextSequence with ⟨_ | sequence, r'⟩
        · exact hflushed
        · dsimp only
          rcases r'.checkResolves scope sequence.first r.index with ⟨_ | _, r''⟩
          · exact ih hflushed hnone
          · refine ih (fun part hpart => ?_) hnone
            rcases List.mem_append.1 hpart with hpart | hpart
            · exact hflushed part hpart
            · obtain rfl := List.mem_singleton.1 hpart
              exact (spells_named hscope).sequenceCode sequence

/-- Expressions are spelled with the alphabet. -/
theorem spells_coded : scope.Coded A.Spells where
  toNamed := spells_named hscope
  empty := spells_plain rfl
  string r := by
    have hnone : ∀ part ∈ ([] : List StringPart), A.SpellsPart part :=
      fun _ h => absurd h List.not_mem_nil
    exact spells_stringCode
      (spells_stringParts hscope _ hnone fun _ h => absurd h List.not_mem_nil)
  number h := by
    refine forall_mem_readNumber h fun code hfrom hto => A.mem_of_plain ?_
    simp [Text.isPlain, isControl, toNat_charOf]
    omega
  symbol op := by cases op <;> exact spells_plain rfl
  applied hname h :=
    ((hname.append (spells_plain rfl)).append (spells_intercalate (spells_plain rfl) h)).append
      (spells_plain rfl)
  compound h := spells_intercalate (spells_plain rfl) fun text htext =>
    h text (List.mem_filter.1 htext).1

end

/-! ## Statements -/

section
variable {ctx : Context} (hscope : A.SpellsNames ctx.scope)
include hscope

theorem spells_generateDeclare (r : Reader) : A.Spells (generateDeclare ctx r).1.code := by
  unfold generateDeclare
  rcases r.readName .declare 1 with ⟨_ | name, r'⟩
  · exact spells_plain rfl
  · dsimp only
    split
    · exact (spells_plain rfl).append (spells_identifier name)
    · have hvalue := (spells_coded hscope).eval r'
      unfold declareVariable
      dsimp only
      split
      · exact (((spells_plain rfl).append (spells_identifier name)).append
          (spells_plain rfl)).append hvalue
      · rename_i bound hbound
        have hname : A.Spells bound := hscope.of_get? hbound
        exact (hname.append (spells_plain rfl)).append hvalue
      · exact spells_plain rfl

theorem spells_generateCall (r : Reader) : A.Spells (generateCall ctx r).1.code := by
  unfold generateCall
  split
  · exact spells_plain rfl
  · exact (spells_coded hscope).evalAs_call r

theorem spells_generateLeave (r : Reader) : A.Spells (generateLeave ctx r).1.code := by
  unfold generateLeave
  split
  · unfold generateReturn
    dsimp only
    split
    · exact spells_plain rfl
    · exact (spells_plain rfl).append ((spells_coded hscope).eval r)
  · exact spells_plain (s := "break") rfl
  · exact spells_plain rfl

theorem spells_generateWhile (r : Reader) : A.Spells (generateWhile ctx r).1.code := by
  have htest : A.Spells
      (if (r.eval ctx.scope).1.isEmpty then "true" else (r.eval ctx.scope).1.code) := by
    split
    · exact spells_plain rfl
    · exact (spells_coded hscope).eval r
  exact ((spells_plain rfl).append htest).append (spells_plain rfl)

omit hscope

theorem spells_typedNames {lead : String} (hlead : A.Spells lead) (names : List Pixel) :
    A.Spells (typedNames lead names) := by
  refine spells_intercalate (spells_plain rfl) fun text htext => ?_
  obtain ⟨p, -, rfl⟩ := List.mem_map.1 htext
  exact (hlead.append (spells_identifier p)).append (spells_plain rfl)

theorem spells_openingCode (names : List Pixel) : A.Spells (openingCode ctx names) := by
  unfold openingCode
  split
  · exact ((spells_plain rfl).append (spells_typedNames (spells_plain rfl) names)).append
      (spells_plain rfl)
  split
  · refine ((spells_plain rfl).append (spells_intercalate (spells_plain rfl) ?_)).append
      (spells_plain rfl)
    intro text htext
    obtain ⟨p, -, rfl⟩ := List.mem_map.1 htext
    exact spells_identifier p
  · exact spells_plain rfl

theorem spells_generateStruct (r : Reader) : A.Spells (generateStruct ctx r).1.code := by
  unfold generateStruct
  rcases r.readName .struct 1 with ⟨_ | name, r'⟩
  · exact spells_plain rfl
  · dsimp only
    generalize Reader.readNames .struct 2 _ = fields
    have hname : A.Spells ("class " ++ name.identifier) :=
      (spells_plain rfl).append (spells_identifier name)
    split
    · exact hname
    · exact ((hname.append (spells_plain rfl)).append
        (spells_typedNames (spells_plain rfl) _)).append (spells_plain rfl)

/-- **The code of a statement is spelled with the alphabet** of the names in scope. -/
theorem spells_generate (hscope : A.SpellsNames ctx.scope) (k : Keyword) (r : Reader) :
    A.Spells (k.generate ctx r).1.code := by
  have heval := (spells_coded hscope).eval r.next.2
  cases k with
  | declare => exact spells_generateDeclare hscope _
  | call => exact spells_generateCall hscope _
  | ifThen => exact ((spells_plain rfl).append heval).append (spells_plain rfl)
  | orElse => exact spells_plain (s := "else") rfl
  | forEach => exact heval.append (spells_plain rfl)
  | whileLoop => exact spells_generateWhile hscope _
  | ret => exact spells_generateLeave hscope _
  | blockOpen => exact spells_openingCode _
  | blockClose => exact spells_plain (s := "\x7d") rfl
  | print => exact ((spells_plain rfl).append heval).append (spells_plain rfl)
  | struct => exact spells_generateStruct _

end

theorem spells_comment (k : Keyword) : A.Spells k.comment := by
  have hkey : A.Spells k.key := by cases k <;> exact spells_plain rfl
  exact ((spells_plain rfl).append hkey).append (spells_plain rfl)

end Alphabet

/-! ## Line breaks -/

/-- The characters that end a line. -/
def Text.lineBreaks : List Char := ['\n', '\r', '\x0b', '\x0c', '\x85', '\u2028', '\u2029']

theorem Text.isPlain_of_mem_lineBreaks {c : Char} (h : c ∈ lineBreaks) : isPlain c = false := by
  have hall : lineBreaks.all (!isPlain ·) = true := by decide
  simpa using List.all_eq_true.1 hall c h

namespace Language

/-- No library function has the character in its target. -/
def TargetsAvoid (l : Language) (c : Char) : Prop :=
  ∀ library ∈ l.libraries, ∀ f ∈ library.functions, c ∉ f.target.toList

instance (l : Language) (c : Char) : Decidable (l.TargetsAvoid c) :=
  inferInstanceAs (Decidable (∀ library ∈ l.libraries, ∀ f ∈ library.functions, _))

/-- The plain characters and those of library targets. -/
def alphabet (l : Language) : Alphabet where
  mem c := Text.isPlain c = true ∨ ¬l.TargetsAvoid c
  mem_of_plain := .inl

variable {l : Language} {pixels : List Pixel} {v : Visit}

/-- **What is written of an entry** is spelled with plain characters and those of targets. -/
theorem spells_text (hv : v ∈ l.visits pixels) : l.alphabet.Spells v.text := by
  obtain ⟨i, hi⟩ := List.mem_iff_getElem?.1 hv
  have hscope : l.alphabet.SpellsNames v.context.scope := by
    refine (invariant_allMembers ?_ ?_).state hi
    · intro p key m hnames
      rw [hnames.name]
      exact Alphabet.spells_identifier p
    · intro library hlibrary f hf c hc
      exact .inr fun havoid => havoid library hlibrary f hf hc
  rw [v.text_eq]
  split
  · exact Alphabet.spells_generate hscope _ _
  · exact Alphabet.spells_comment _

/-- **A text holds no line break** that no target holds. -/
theorem lineBreak_not_mem_text (hv : v ∈ l.visits pixels) {c : Char} (hc : c ∈ Text.lineBreaks)
    (havoid : l.TargetsAvoid c) : c ∉ v.text.toList := by
  intro hmem
  rcases spells_text hv c hmem with hplain | htarget
  · rw [Text.isPlain_of_mem_lineBreaks hc] at hplain
    cases hplain
  · exact htarget havoid

end Language

/-! ## Visible texts -/

/-- The text has a character that is not blank. -/
def Text.Visible (cs : List Char) : Prop := ∃ c ∈ cs, isBlank c = false

theorem Text.Visible.ne_nil {cs : List Char} (h : Visible cs) : cs ≠ [] := by
  rintro rfl
  obtain ⟨c, hc, -⟩ := h
  exact absurd hc List.not_mem_nil

theorem Text.Visible.append_left {cs ds : List Char} (h : Visible ds) : Visible (cs ++ ds) := by
  obtain ⟨c, hc, hblank⟩ := h
  exact ⟨c, List.mem_append_right cs hc, hblank⟩

theorem Text.Visible.append_right {cs ds : List Char} (h : Visible cs) : Visible (cs ++ ds) := by
  obtain ⟨c, hc, hblank⟩ := h
  exact ⟨c, List.mem_append_left ds hc, hblank⟩

/-- A name that is not there is reported. -/
theorem isSome_readName {k : Keyword} {token : Nat} {r : Reader}
    (h : (r.readName k token).2.diagnostics = []) : (r.readName k token).1.isSome = true := by
  unfold readName at h ⊢
  obtain ⟨p, hn, -⟩ | hn := next_cases r
  · simp only [hn] at h ⊢
    split at h
    · rename_i hsymbol
      simp [hsymbol]
    · simp [reportIn, record] at h
  · simp [hn, reportIn, record] at h

section
variable {ctx : Context} {r : Reader}

theorem visible_declareVariable {scope : Scope} {existing : Option Member} {name : Pixel}
    {start : Nat} (h : (declareVariable scope existing name start r).2.diagnostics = []) :
    Text.Visible (declareVariable scope existing name start r).1.code.toList := by
  cases existing with
  | none => exact ⟨'v', by simp [declareVariable], rfl⟩
  | some m =>
    cases m with
    | var bound => exact ⟨'=', by simp [declareVariable], rfl⟩
    | _ => simp [declareVariable, report, record] at h

theorem visible_generateDeclare (h : (generateDeclare ctx r).2.diagnostics = []) :
    Text.Visible (generateDeclare ctx r).1.code.toList := by
  have hsome (h : (r.readName .declare 1).2.diagnostics = []) := isSome_readName h
  unfold generateDeclare at h ⊢
  rcases hname : r.readName .declare 1 with ⟨_ | name, r'⟩
  · rw [hname] at hsome h
    exact absurd (hsome h) nofun
  · simp only [hname] at h ⊢
    split
    · exact ⟨'f', by simp [declareFunction], rfl⟩
    · rename_i hvariable
      rw [if_neg hvariable] at h
      exact visible_declareVariable h

theorem visible_generateLeave (h : (generateLeave ctx r).2.diagnostics = []) :
    Text.Visible (generateLeave ctx r).1.code.toList := by
  unfold generateLeave at h ⊢
  split
  · refine ⟨'r', ?_, rfl⟩
    unfold generateReturn
    dsimp only
    split <;> simp
  · exact ⟨'b', by simp [generateBreak], rfl⟩
  · rename_i hone htwo
    split at h
    · exact absurd ‹ctx.chain = 1› hone
    · exact absurd ‹ctx.chain = 2› htwo
    · simp [report, record, skipToEnd] at h

theorem visible_generateStruct (h : (generateStruct ctx r).2.diagnostics = []) :
    Text.Visible (generateStruct ctx r).1.code.toList := by
  have hsome (h : (r.readName .struct 1).2.diagnostics = []) := isSome_readName h
  unfold generateStruct at h ⊢
  rcases hname : r.readName .struct 1 with ⟨_ | name, r'⟩
  · rw [hname] at hsome h
    exact absurd (hsome h) nofun
  · dsimp only
    generalize Reader.readNames .struct 2 _ = fields
    refine ⟨'c', ?_, rfl⟩
    split <;> simp

theorem visible_openingCode (names : List Pixel) :
    Text.Visible (openingCode ctx names).toList := by
  refine ⟨'\x7b', ?_, rfl⟩
  unfold openingCode
  repeat' split
  all_goals simp

/-- A statement that reports nothing has code to show. -/
theorem visible_generate {k : Keyword} (hr : r.diagnostics = [])
    (h : (k.generate ctx r).2.diagnostics = []) :
    Text.Visible (k.generate ctx r).1.code.toList := by
  have hnext : r.next.2.diagnostics = [] := r.diagnostics_next.trans hr
  unfold Keyword.generate at h ⊢
  cases k with
  | declare => exact visible_generateDeclare h
  | call =>
    obtain ⟨callee, arguments, hcode⟩ := exists_code_generateCall hnext h
    refine ⟨'(', ?_, rfl⟩
    show '(' ∈ (generateCall ctx r.next.2).1.code.toList
    rw [hcode]
    simp [Expression.applied]
  | ret => exact visible_generateLeave h
  | struct => exact visible_generateStruct h
  | blockOpen => exact visible_openingCode _
  | forEach => exact ⟨'.', by simp [Keyword.generator, generateForEach], rfl⟩
  | ifThen => exact ⟨'i', by simp [Keyword.generator, generateIf], rfl⟩
  | orElse => exact ⟨'e', by simp [Keyword.generator, generateElse], rfl⟩
  | whileLoop => exact ⟨'w', by simp [Keyword.generator, generateWhile], rfl⟩
  | print => exact ⟨'p', by simp [Keyword.generator, generatePrint], rfl⟩
  | blockClose => exact ⟨'\x7d', by simp [Keyword.generator, generateClose], rfl⟩

end

/-- **What is written of an entry is not blank.** -/
theorem Visit.visible_text (v : Visit) : Text.Visible v.text.toList := by
  rw [v.text_eq]
  split
  · rename_i hnone
    exact visible_generate (diagnostics_entryReader hnone) hnone
  · exact ⟨'/', by simp [Keyword.comment], rfl⟩

end PixelLang
