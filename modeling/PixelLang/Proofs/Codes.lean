import PixelLang.Proofs.Naming

/-!
# What holds of code

The code of an expression is put together from the names in scope, from literals and from fixed
texts. What holds of these and is kept when they are put together holds of the code of every
expression that can be read (`Scope.Coded.eval`).

* `Language.invariant_allMembers`: what holds of library functions and of all that a program binds
  holds of all members in scope.
* `Scope.Named`, `Scope.Coded`: a property that names, and that expressions keep.
-/

set_option autoImplicit false

namespace PixelLang

open Reader

/-! ## Members in scope -/

namespace Scope

/-- All bound members have the property. -/
def AllMembers (P : Member → Prop) (s : Scope) : Prop :=
  (∀ f ∈ s.frames, ∀ entry ∈ f.members.entries, P entry.2) ∧ ∀ entry ∈ s.globals.entries, P entry.2

variable {P : Member → Prop} {s : Scope}

theorem AllMembers.of_get? (h : s.AllMembers P) {key : String} {m : Member}
    (hm : s.get? key = some m) : P m := by
  have hmem {entries : List (String × Member)} (hlookup : entries.lookup key = some m) :
      (key, m) ∈ entries := by
    obtain ⟨before, after, hentries, -⟩ := List.lookup_eq_some_iff.1 hlookup
    rw [hentries]
    simp
  unfold get? at hm
  split at hm
  · rename_i m' hfound
    obtain rfl := Option.some.inj hm
    obtain ⟨f, hf, hget⟩ := List.exists_of_findSome?_eq_some hfound
    exact h.1 f hf _ (hmem hget)
  · exact h.2 _ (hmem hm)

theorem AllMembers.of_member? (h : s.AllMembers P) {p : Pixel} {m : Member}
    (hm : s.member? p = some m) : P m := by
  unfold member? at hm
  split at hm
  · exact h.of_get? hm
  · cases hm

end Scope

/-- What holds of library functions and of all that pixels name holds of all bound members. -/
theorem Language.invariant_allMembers {l : Language} {pixels : List Pixel} {P : Member → Prop}
    (hnames : ∀ (p : Pixel) (key : String) (m : Member), p.Names key m → P m)
    (hlibrary : ∀ library ∈ l.libraries, ∀ f ∈ library.functions, P f.member) :
    l.Invariant pixels (Scope.AllMembers P) := by
  let Holds (b : Bindings) : Prop := ∀ entry ∈ b.entries, P entry.2
  have hempty : Holds .empty := fun _ hentry => absurd hentry List.not_mem_nil
  have hglobal : Holds l.globalBindings := by
    intro entry hentry
    obtain ⟨library, hmem, f, hf, -, -, -, hmember⟩ := offers_of_mem_globalBindings hentry
    rw [hmember]
    exact hlibrary library hmem f hf
  have hinsert (b : Bindings) (p : Pixel) (key : String) (m : Member) (hb : Holds b)
      (_ : p ∈ pixels) (hnamed : p.Names key m) : Holds (b.insert key m) := by
    intro entry hentry
    rcases Bindings.mem_insertEntry hentry with rfl | hentry
    · exact hnames p key m hnamed
    · exact hb entry hentry
  exact invariant_of_bindings hempty hglobal hinsert hinsert

/-! ## Numbers -/

theorem toNat_charOf (code : UInt8) : (charOf code).toNat = code.toNat := by
  have hvalid : code.toNat.isValidChar := .inl (by have := code.toNat_lt; omega)
  rw [charOf, Char.ofNat, dif_pos hvalid]
  rfl

theorem toNat_charOf_lt (code : UInt8) : (charOf code).toNat < 256 :=
  toNat_charOf code ▸ code.toNat_lt

/-- What spells a number are digits and a minus sign. -/
theorem code_of_isNumber {pixels : List Pixel} (h : isNumber pixels = true) {p : Pixel}
    (hp : p ∈ pixels) {code : UInt8} (hcode : p.character? = some code) :
    45 ≤ code.toNat ∧ code.toNat ≤ 57 := by
  have hdigit : code = 45 ∨ Pixel.isDigitCode code = true := by
    have hmem : code ∈ pixels.filterMap Pixel.character? := List.mem_filterMap.2 ⟨p, hp, hcode⟩
    have hspell := (Bool.and_eq_true_iff.1 h).2
    cases hcodes : pixels.filterMap Pixel.character? with
    | nil => simp [hcodes] at hmem
    | cons first rest =>
      rw [hcodes, spellNumber] at hspell
      rw [hcodes] at hmem
      split at hspell
      · rename_i hminus
        rcases List.mem_cons.1 hmem with rfl | hrest
        · exact .inl hminus
        · exact .inr (List.all_eq_true.1 (Bool.and_eq_true_iff.1 hspell).2 _ hrest)
      · exact .inr (List.all_eq_true.1 hspell _ hmem)
  rcases hdigit with rfl | hdigit
  · decide
  · simp only [Pixel.isDigitCode, Bool.and_eq_true, decide_eq_true_eq, UInt8.le_iff_toNat_le]
      at hdigit
    have hfrom : 48 ≤ code.toNat := hdigit.1
    have hto : code.toNat ≤ 57 := hdigit.2
    omega

/-- The characters of a number are those of its codes. -/
theorem forall_mem_readNumber {P : Char → Prop} {r : Reader} (h : isNumber r.remaining = true)
    (hP : ∀ code : UInt8, 45 ≤ code.toNat → code.toNat ≤ 57 → P (charOf code)) :
    ∀ c ∈ r.readNumber.1.code.toList, P c := by
  have hall : ∀ c ∈ (r.remaining.foldl numberStep ([], r)).1, P c := by
    refine List.foldlRecOn (motive := fun acc : List Char × Reader => ∀ c ∈ acc.1, P c)
      r.remaining numberStep (fun _ h => absurd h List.not_mem_nil) fun acc hacc p hp => ?_
    unfold numberStep
    cases hcode : p.character? with
    | none => exact hacc
    | some code =>
      intro c hc
      rcases List.mem_append.1 hc with hc | hc
      · exact hacc c hc
      · obtain rfl := List.mem_singleton.1 hc
        obtain ⟨hfrom, hto⟩ := code_of_isNumber h hp hcode
        exact hP code hfrom hto
  show ∀ c ∈ (String.ofList _).toList, P c
  rwa [String.toList_ofList]

theorem isNumber_of_shapeOf {scope : Scope} {pixels : List Pixel}
    (h : shapeOf scope pixels = .number) : isNumber pixels = true := by
  cases pixels with
  | nil => cases h
  | cons first rest =>
    unfold shapeOf at h
    dsimp only at h
    repeat' split at h
    all_goals first | assumption | cases h

/-! ## Names and expressions -/

/-- What texts have and putting them together keeps, an intercalation has. -/
theorem intercalate_of_append {P : String → Prop} (hempty : P "")
    (happend : ∀ {s t : String}, P s → P t → P (s ++ t)) {separator : String} (hs : P separator)
    {texts : List String} (h : ∀ text ∈ texts, P text) : P (separator.intercalate texts) := by
  induction texts with
  | nil => exact hempty
  | cons text texts ih =>
    have htext := h text (.head _)
    cases texts with
    | nil => simpa using htext
    | cons next texts =>
      rw [String.intercalate_cons_cons]
      exact happend (happend htext hs) (ih fun text' htext' => h text' (.tail _ htext'))

namespace Scope

/-- Names that are written in the scope have the property. -/
structure Named (scope : Scope) (P : String → Prop) : Prop where
  boolean (value : Bool) : P (Expression.booleanCode value)
  identifier (p : Pixel) : P p.identifier
  member {p : Pixel} {m : Member} : scope.member? p = some m → P m.name
  dotted {texts : List String} : (∀ text ∈ texts, P text) → P (".".intercalate texts)

/-- The parts of an expression have the property, and writing an expression keeps it. -/
structure Coded (scope : Scope) (P : String → Prop) : Prop extends scope.Named P where
  empty : P ""
  string (r : Reader) : P (r.readString scope).1.code
  number {r : Reader} : isNumber r.remaining = true → P r.readNumber.1.code
  symbol (op : Operator) : P op.symbol
  applied {name : String} {arguments : List String} :
    P name → (∀ text ∈ arguments, P text) → P (Expression.applied name arguments)
  compound {texts : List String} :
    (∀ text ∈ texts, P text) → P (" ".intercalate (texts.filter (!·.isEmpty)))

variable {scope : Scope} {P : String → Prop}

theorem Named.firstCode (h : scope.Named P) (p : Pixel) : P (scope.firstCode p) := by
  unfold Scope.firstCode nameOf?
  cases p.boolean? with
  | some value => exact h.boolean value
  | none =>
    cases hm : scope.member? p with
    | none => exact h.identifier p
    | some m => exact h.member hm

theorem Named.sequenceCode (h : scope.Named P) (s : Sequence) : P (scope.sequenceCode s) := by
  refine h.dotted fun text htext => ?_
  rcases List.mem_cons.1 htext with rfl | htext
  · exact h.firstCode s.first
  · obtain ⟨p, -, rfl⟩ := List.mem_map.1 htext
    unfold memberCode
    cases hm : scope.member? p with
    | none => exact h.identifier p
    | some m =>
      dsimp only
      split
      · exact h.member hm
      · exact h.identifier p

namespace Coded

variable (h : scope.Coded P)
include h

theorem readBoolean (r : Reader) : P r.readBoolean.1.code := by
  unfold Reader.readBoolean
  rcases r.next with ⟨_ | p, r'⟩
  · exact h.empty
  · dsimp only
    cases p.boolean? with
    | some value => exact h.boolean value
    | none => exact h.empty

/-! Slices, and what is read from them. -/

section
variable {nested : SliceReader} (hnested : ∀ r, P (nested r).1.code)
include hnested

omit h in
theorem readArguments (fuel : Nat) (r : Reader) :
    ∀ text ∈ Expression.codes (r.readArguments nested fuel).1, P text := by
  induction fuel generalizing r with
  | zero => exact fun _ hmem => absurd hmem List.not_mem_nil
  | succ fuel ih =>
    unfold Reader.readArguments
    dsimp only
    split
    · exact fun _ hmem => absurd hmem List.not_mem_nil
    split
    · exact fun _ hmem => absurd hmem List.not_mem_nil
    · intro text htext
      rcases List.mem_cons.1 htext with rfl | htext
      · exact hnested _
      · exact ih _ text htext

theorem readOperands (more : List (Operator × List Pixel)) (before : Option Operator)
    (start length : Nat) (r : Reader) :
    ∀ text ∈ Expression.partCodes (r.readOperands nested more before start length).1, P text := by
  induction more generalizing before start length r with
  | nil =>
    have hone : ∀ text ∈
        Expression.partCodes [.operand (r.readSlice nested start (start + length)).1],
        P text := by
      intro text htext
      obtain rfl := List.mem_singleton.1 htext
      exact hnested _
    unfold Reader.readOperands
    dsimp only
    repeat' split
    all_goals exact hone
  | cons entry more ih =>
    obtain ⟨op, segment⟩ := entry
    intro text htext
    rcases List.mem_cons.1 htext with rfl | htext
    · exact hnested _
    · rcases List.mem_cons.1 htext with rfl | htext
      · exact h.symbol op
      · exact ih _ _ _ _ text htext

theorem readCall (r : Reader) : P (r.readCall scope nested).1.code := by
  unfold Reader.readCall
  rcases r.nextSequence with ⟨_ | s, r'⟩
  · exact h.empty
  · dsimp only
    rcases r'.checkResolves scope s.first r.index with ⟨_ | _, r''⟩
    · exact h.identifier s.first
    · dsimp only [readCallOf]
      have hcallee := h.sequenceCode s
      cases scope.callable? s with
      | some m => exact h.applied hcallee (readArguments hnested _ _)
      | none =>
        dsimp only
        split <;> exact hcallee

theorem readConstruct (r : Reader) : P (r.readConstruct scope nested).1.code := by
  unfold Reader.readConstruct
  rcases r.next with ⟨_ | p, r'⟩
  · exact h.empty
  · dsimp only
    have hname := h.firstCode p
    cases (scope.member? p).filter Member.isStruct with
    | some m => exact h.applied hname (readArguments hnested _ _)
    | none => exact h.applied hname fun _ hmem => absurd hmem List.not_mem_nil

/-- An expression is read in the shape that its pixels have, or as a call. -/
theorem readWith {shape : Shape} {r : Reader}
    (hshape : shape = r.analyze scope ∨ shape = .call) :
    P (r.readWith scope nested shape).1.code := by
  show P (r.readShape scope nested shape).1.code
  cases shape with
  | string => exact h.string r
  | number =>
    have hanalyze : r.analyze scope = .number := (hshape.resolve_right (by simp)).symm
    exact h.number (isNumber_of_shapeOf hanalyze)
  | boolean => exact h.readBoolean r
  | call => exact h.readCall hnested r
  | construct => exact h.readConstruct hnested r
  | compound => exact h.compound (h.readOperands hnested _ _ _ _ _)
  | empty => exact h.empty

end

theorem evalSlice (depth : Nat) (r : Reader) : P (Reader.evalSlice scope depth r).1.code := by
  induction depth generalizing r with
  | zero => exact h.empty
  | succ depth ih => exact h.readWith ih (.inl rfl)

/-- **The code of every expression has the property.** -/
theorem eval (r : Reader) : P (r.eval scope).1.code :=
  h.readWith (h.evalSlice sliceDepth) (.inl rfl)

theorem evalAs_call (r : Reader) : P (r.evalAs scope .call).1.code :=
  h.readWith (h.evalSlice sliceDepth) (.inr rfl)

end Coded

end Scope

end PixelLang
