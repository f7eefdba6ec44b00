import PixelLang.Proofs.Likeness.Readers
import PixelLang.Statement.Generate

/-!
# Expressions alike

Readers that are alike read expressions that are alike in scopes that are: of the same shape, with
codes that stand for each other (`Readers.eval`). Reading branches on the kinds of pixels, on what
names are bound to and on whether an argument is empty, and on nothing else.
-/

set_option autoImplicit false

namespace PixelLang.Likeness

variable (L : Likeness)

/-! ## Codes -/

/-- Of an expression only its shape and its code are looked at. -/
structure Expressions (e e' : Expression) : Prop where
  shape : e.shape = e'.shape
  isPlainName : e.isPlainName = e'.isPlainName
  code : L.text e.code e'.code

/-- Of a part of a string only its code is looked at. -/
def StringParts (part part' : StringPart) : Prop :=
  L.text (String.ofList (Expression.partCode part)) (String.ofList (Expression.partCode part'))

inductive CompoundParts : CompoundPart → CompoundPart → Prop
  | operand {e e' : Expression} : L.Expressions e e' → CompoundParts (.operand e) (.operand e')
  | operator (op : Operator) : CompoundParts (.operator op) (.operator op)

variable {L} {p q : Pixel} {ps qs : List Pixel} {s s' : Scope} {r r' : Reader}

theorem StringParts.reference {code code' : String} (h : L.text code code') :
    L.StringParts (.reference code) (.reference code') := by
  have hcode : ∀ code : String,
      String.ofList (Expression.partCode (.reference code)) = "$\x7b" ++ code ++ "\x7d" := by
    intro code
    rw [← String.toList_inj]
    simp [Expression.partCode]
  rw [StringParts, hcode, hcode]
  exact L.text_append (L.text_append (L.text_refl _) h) (L.text_refl _)

theorem text_stringCode {parts parts' : List StringPart}
    (h : List.Forall₂ L.StringParts parts parts') :
    L.text (Expression.stringCode parts) (Expression.stringCode parts') := by
  have hparts : L.text (String.ofList (parts.flatMap Expression.partCode))
      (String.ofList (parts'.flatMap Expression.partCode)) := by
    induction h with
    | nil => exact L.text_refl _
    | cons hpart _ ih =>
      rw [List.flatMap_cons, List.flatMap_cons, String.ofList_append, String.ofList_append]
      exact L.text_append hpart ih
  have hcode : ∀ parts : List StringPart, Expression.stringCode parts =
      "\"" ++ String.ofList (parts.flatMap Expression.partCode) ++ "\"" := by
    intro parts
    rw [← String.toList_inj]
    simp [Expression.stringCode]
  rw [hcode, hcode]
  exact L.text_append (L.text_append (L.text_refl _) hparts) (L.text_refl _)

theorem text_codes {es es' : List Expression} (h : List.Forall₂ L.Expressions es es') :
    List.Forall₂ L.text (Expression.codes es) (Expression.codes es') := by
  induction h with
  | nil => exact .nil
  | cons he _ ih => exact .cons he.code ih

theorem text_partCodes {parts parts' : List CompoundPart}
    (h : List.Forall₂ L.CompoundParts parts parts') :
    List.Forall₂ L.text (Expression.partCodes parts) (Expression.partCodes parts') := by
  induction h with
  | nil => exact .nil
  | cons hpart _ ih =>
    cases hpart with
    | operand he => exact .cons he.code ih
    | operator op => exact .cons (L.text_refl _) ih

namespace Expressions

theorem refl (e : Expression) : L.Expressions e e := ⟨rfl, rfl, L.text_refl _⟩

theorem isEmpty {e e' : Expression} (h : L.Expressions e e') : e.isEmpty = e'.isEmpty := by
  rw [Expression.isEmpty, Expression.isEmpty, h.shape]

theorem string {parts parts' : List StringPart} (h : List.Forall₂ L.StringParts parts parts') :
    L.Expressions (.string parts) (.string parts') := ⟨rfl, rfl, text_stringCode h⟩

theorem name {callee callee' : String} (h : L.text callee callee') :
    L.Expressions (.call callee none) (.call callee' none) := ⟨rfl, rfl, h⟩

theorem call {callee callee' : String} {es es' : List Expression} (h : L.text callee callee')
    (hes : List.Forall₂ L.Expressions es es') :
    L.Expressions (.call callee (some es)) (.call callee' (some es')) :=
  ⟨rfl, rfl, text_applied h (text_codes hes)⟩

theorem construct {name name' : String} {es es' : List Expression} (h : L.text name name')
    (hes : List.Forall₂ L.Expressions es es') :
    L.Expressions (.construct name es) (.construct name' es') :=
  ⟨rfl, rfl, text_applied h (text_codes hes)⟩

theorem compound {parts parts' : List CompoundPart}
    (h : List.Forall₂ L.CompoundParts parts parts') :
    L.Expressions (.compound parts) (.compound parts') := by
  refine ⟨rfl, rfl, text_intercalate _ (List.rel_filter (fun s s' hs => ?_) (text_partCodes h))⟩
  show (!s.isEmpty) = true ↔ (!s'.isEmpty) = true
  rw [L.text_isEmpty hs]

end Expressions

/-! ## Analysis -/

theorem isNumber_eq (h : List.Forall₂ L.pixel ps qs) : isNumber ps = isNumber qs := by
  have hcodes : ps.map Pixel.character? = qs.map Pixel.character? :=
    map_eq_of_forall₂ (fun _ _ hp => character?_eq hp) h
  have hnumber : ∀ ps : List Pixel, isNumber ps =
      ((ps.map Pixel.character?).all Option.isSome &&
        spellNumber ((ps.map Pixel.character?).filterMap id)) := by
    intro ps
    rw [List.all_map, List.filterMap_map]
    rfl
  rw [hnumber, hnumber, hcodes]

theorem shapeOf_eq (hs : L.Scopes s s') (h : List.Forall₂ L.pixel ps qs) :
    shapeOf s ps = shapeOf s' qs := by
  cases h with
  | nil => rfl
  | @cons p q ps qs hp hrest =>
    have hpixels : List.Forall₂ L.pixel (p :: ps) (q :: qs) := .cons hp hrest
    have hoperator : (p :: ps).any Pixel.isOperator = (q :: qs).any Pixel.isOperator :=
      any_eq_of_forall₂ (fun _ _ hp => eq_of_kind Pixel.isOperator (fun _ => rfl) hp) hpixels
    have hstruct : (s.member? p).any Member.isStruct = (s'.member? q).any Member.isStruct := by
      obtain ⟨hn, hn'⟩ | ⟨m, m', hm, hm', hmember⟩ := rel_cases (hs.member? hp)
      · rw [hn, hn']
      · rw [hm, hm']
        exact hmember.isStruct
    have htext : ((p :: ps).any fun p => p.isCharacter && !p.isDigit) =
        (q :: qs).any fun p => p.isCharacter && !p.isDigit :=
      any_eq_of_forall₂ (fun _ _ hp =>
        eq_of_kind (fun p => p.isCharacter && !p.isDigit) (fun _ => rfl) hp) hpixels
    rw [shapeOf, shapeOf, hoperator, hstruct, isNumber_eq hpixels, htext,
      isEmpty_eq_of_forall₂ hrest, eq_of_kind Pixel.isBoolean (fun _ => rfl) hp,
      isCharacter_eq hp]

theorem argumentLength_eq (h : List.Forall₂ L.pixel ps qs) :
    argumentLength ps = argumentLength qs := by
  cases h with
  | nil => rfl
  | @cons p q ps qs hp hrest =>
    have hrun : (ps.takeWhile Pixel.isCharacter).length =
        (qs.takeWhile Pixel.isCharacter).length := by
      have hcharacters := map_eq_of_forall₂ (fun _ _ hp => isCharacter_eq hp) hrest
      simpa [List.takeWhile_map, Function.comp_def] using
        congrArg (fun l => (l.takeWhile id).length) hcharacters
    have hother : (p.isOperator || p.isDot || p.isKeyword) =
        (q.isOperator || q.isDot || q.isKeyword) :=
      eq_of_kind (fun p => p.isOperator || p.isDot || p.isKeyword) (fun _ => rfl) hp
    rw [argumentLength, argumentLength, isCharacter_eq hp, hrun,
      eq_of_kind Pixel.isBoolean (fun _ => rfl) hp, hother, length_dottedTail hrest]

namespace Readers

theorem analyze (h : L.Readers r r') (hs : L.Scopes s s') : r.analyze s = r'.analyze s' :=
  shapeOf_eq hs h.remaining

/-! ## Literals -/

theorem checkResolves (h : L.Readers r r') (hs : L.Scopes s s') (hp : L.pixel p q)
    (position : Nat) :
    L.Results Eq (r.checkResolves s p position) (r'.checkResolves s' q position) := by
  rw [Reader.checkResolves, Reader.checkResolves]
  obtain ⟨hn, hn'⟩ | ⟨_, _, hsome, hsome', _⟩ := rel_cases (hs.nameOf? hp)
  · rw [hn, hn']
    exact ⟨rfl, h.report (.unresolved hp) _⟩
  · rw [hsome, hsome']
    exact ⟨rfl, h⟩

end Readers

theorem Results.boolCases {x y : Bool × Reader} (h : L.Results Eq x y) :
    (∃ t t', x = (true, t) ∧ y = (true, t') ∧ L.Readers t t') ∨
      ∃ t t', x = (false, t) ∧ y = (false, t') ∧ L.Readers t t' := by
  obtain ⟨a, t⟩ := x
  obtain ⟨b, t'⟩ := y
  obtain ⟨rfl, ht⟩ := h
  cases a with
  | true => exact .inl ⟨t, t', rfl, rfl, ht⟩
  | false => exact .inr ⟨t, t', rfl, rfl, ht⟩

theorem sequenceCode_alike {n n' : Sequence} (hs : L.Scopes s s') (hn : L.Sequences n n') :
    L.text (s.sequenceCode n) (s'.sequenceCode n') :=
  text_intercalate _ (.cons (hs.firstCode hn.first)
    (List.rel_map (fun _ _ hp => hs.memberCode hp) hn.members))

theorem flushText_alike {parts parts' : List StringPart}
    (h : List.Forall₂ L.StringParts parts parts') (text : List Char) :
    List.Forall₂ L.StringParts (flushText parts text) (flushText parts' text) := by
  rw [flushText, flushText]
  split
  · exact h
  · exact List.rel_append h (.cons (L.text_refl _) .nil)

namespace Readers

theorem stringParts (hs : L.Scopes s s') (fuel : Nat) {parts parts' : List StringPart}
    (hparts : List.Forall₂ L.StringParts parts parts') (text : List Char) (h : L.Readers r r') :
    L.Results (List.Forall₂ L.StringParts) (r.stringParts s fuel parts text)
      (r'.stringParts s' fuel parts' text) := by
  -- pending text is the same in both runs: it is spelled by characters, which are kinds of pixels
  induction fuel generalizing parts parts' text r r' with
  | zero => exact ⟨flushText_alike hparts text, h⟩
  | succ fuel ih =>
    rw [Reader.stringParts, Reader.stringParts]
    obtain ⟨hn, hn'⟩ | ⟨p, q, hp, hq, hpq⟩ := rel_cases h.peek
    · rw [hn, hn']
      exact ⟨flushText_alike hparts text, h⟩
    · rw [hp, hq]
      dsimp only
      rw [character?_eq hpq]
      split
      · split
        · exact ih (flushText_alike hparts text) _ (h.advance 1)
        · exact ih hparts _ (h.advance 1)
      · obtain ⟨t, t', ht, ht', htt⟩ | ⟨n, n', t, t', ht, ht', hnn, htt⟩ := h.nextSequence.cases
        · rw [ht, ht']
          exact ⟨flushText_alike hparts text, htt⟩
        · rw [ht, ht', h.index]
          dsimp only
          obtain ⟨u, u', hu, hu', huu⟩ | ⟨u, u', hu, hu', huu⟩ :=
            (htt.checkResolves hs hnn.first r'.index).boolCases
          · rw [hu, hu']
            exact ih (List.rel_append (flushText_alike hparts text)
              (.cons (.reference (sequenceCode_alike hs hnn)) .nil)) _ huu
          · rw [hu, hu']
            exact ih (flushText_alike hparts text) _ huu

theorem readString (h : L.Readers r r') (hs : L.Scopes s s') :
    L.Results L.Expressions (r.readString s) (r'.readString s') := by
  rw [Reader.readString, Reader.readString, h.remaining.length_eq]
  have hparts := stringParts hs r'.remaining.length .nil [] h
  exact ⟨.string hparts.value, hparts.reader⟩

theorem numberStep (x y : List Char × Reader) (p q : Pixel) (h : L.Results Eq x y)
    (hp : L.pixel p q) : L.Results Eq (Reader.numberStep x p) (Reader.numberStep y q) := by
  rw [Reader.numberStep, Reader.numberStep, character?_eq hp, h.value]
  have hnext := h.reader.advance 1
  split
  · exact ⟨rfl, hnext⟩
  · exact ⟨rfl, hnext.report (.notInNumber hp) _⟩

theorem readNumber (h : L.Readers r r') : L.Results L.Expressions r.readNumber r'.readNumber := by
  have hdigits : L.Results Eq (r.remaining.foldl Reader.numberStep ([], r))
      (r'.remaining.foldl Reader.numberStep ([], r')) :=
    Results.foldl numberStep h.remaining ⟨rfl, h⟩
  rw [Reader.readNumber, Reader.readNumber]
  refine ⟨?_, hdigits.reader⟩
  show L.Expressions (.number (String.ofList _)) (.number (String.ofList _))
  rw [hdigits.value]
  exact .refl _

theorem readBoolean (h : L.Readers r r') :
    L.Results L.Expressions r.readBoolean r'.readBoolean := by
  rw [Reader.readBoolean, Reader.readBoolean]
  obtain ⟨t, t', ht, ht', htt⟩ | ⟨p, q, t, t', ht, ht', hpq, htt⟩ := h.next.cases
  · rw [ht, ht']
    exact ⟨.refl _, htt⟩
  · rw [ht, ht']
    dsimp only
    rw [boolean?_eq hpq]
    split
    · exact ⟨.refl _, htt⟩
    · exact ⟨.refl _, htt.report (.notBoolean hpq) _⟩

end Readers

/-! ## Slices and arguments -/

/-- Slices that are alike are read alike. -/
def SliceReaders (L : Likeness) (nested nested' : SliceReader) : Prop :=
  ∀ r r', L.Readers r r' → L.Results L.Expressions (nested r) (nested' r')

theorem callable?_alike {n n' : Sequence} (hs : L.Scopes s s') (hn : L.Sequences n n') :
    Option.Rel L.Members (s.callable? n) (s'.callable? n') := by
  have hnested : n.isNested = n'.isNested := congrArg (!·) (isEmpty_eq_of_forall₂ hn.members)
  refine rel_filter (fun m m' hm => ?_) (hs.member? hn.last)
  rw [hm.isFunction, hm.isStruct, hnested]

namespace Readers

variable {nested nested' : SliceReader} {m m' : Member} {name name' : String}

theorem readSlice (h : L.Readers r r') (hnested : L.SliceReaders nested nested')
    (start stop : Nat) :
    L.Results L.Expressions (r.readSlice nested start stop) (r'.readSlice nested' start stop) := by
  have hslice := hnested _ _ (h.slice start stop)
  exact ⟨hslice.value, h.absorb hslice.reader⟩

theorem readArguments (hnested : L.SliceReaders nested nested') (fuel : Nat)
    (h : L.Readers r r') :
    L.Results (List.Forall₂ L.Expressions) (r.readArguments nested fuel)
      (r'.readArguments nested' fuel) := by
  induction fuel generalizing r r' with
  | zero => exact ⟨.nil, h⟩
  | succ fuel ih =>
    rw [Reader.readArguments, Reader.readArguments, argumentLength_eq h.remaining, h.index]
    dsimp only
    split
    · exact ⟨.nil, h⟩
    · -- both runs cut the argument at the same indices
      have hslice := (h.advance (argumentLength r'.remaining)).readSlice hnested r'.index
        (r'.index + argumentLength r'.remaining)
      rw [hslice.value.isEmpty]
      split
      · exact ⟨.nil, hslice.reader⟩
      · have hrest := ih hslice.reader
        exact ⟨.cons hslice.value hrest.value, hrest.reader⟩

theorem checkArity (h : L.Readers r r') (hm : L.Members m m') (hname : L.text name name')
    (found start : Nat) :
    L.Readers (r.checkArity m name found start) (r'.checkArity m' name' found start) := by
  rw [Reader.checkArity, Reader.checkArity, hm.accepts]
  split
  · exact h
  · exact h.report (.wrongArity found hm hname) _

theorem readApplied (h : L.Readers r r') (hnested : L.SliceReaders nested nested')
    (hm : L.Members m m') (hname : L.text name name') (start : Nat) :
    L.Results (List.Forall₂ L.Expressions) (r.readApplied nested m name start)
      (r'.readApplied nested' m' name' start) := by
  have harguments := readArguments hnested r'.remaining.length h
  rw [Reader.readApplied, Reader.readApplied, h.remaining.length_eq]
  refine ⟨harguments.value, ?_⟩
  dsimp only
  rw [harguments.value.length_eq]
  exact harguments.reader.checkArity hm hname _ _

/-! ## Calls and structs -/

theorem readCallOf (h : L.Readers r r') (hs : L.Scopes s s')
    (hnested : L.SliceReaders nested nested') {n n' : Sequence} (hn : L.Sequences n n')
    (start : Nat) :
    L.Results L.Expressions (r.readCallOf s nested n start)
      (r'.readCallOf s' nested' n' start) := by
  have hcallee := sequenceCode_alike hs hn
  rw [Reader.readCallOf, Reader.readCallOf]
  dsimp only
  obtain ⟨hm, hm'⟩ | ⟨m, m', hm, hm', hmember⟩ := rel_cases (callable?_alike hs hn)
  · rw [hm, hm', h.hasNext, h.index]
    dsimp only
    split
    · exact ⟨.name hcallee, (h.report (.notFunction hn.last) _).skipToEnd⟩
    · exact ⟨.name hcallee, h⟩
  · rw [hm, hm']
    have happlied := h.readApplied hnested hmember hcallee start
    exact ⟨.call hcallee happlied.value, happlied.reader⟩

theorem readCall (h : L.Readers r r') (hs : L.Scopes s s')
    (hnested : L.SliceReaders nested nested') :
    L.Results L.Expressions (r.readCall s nested) (r'.readCall s' nested') := by
  rw [Reader.readCall, Reader.readCall]
  obtain ⟨t, t', ht, ht', htt⟩ | ⟨n, n', t, t', ht, ht', hn, htt⟩ := h.nextSequence.cases
  · rw [ht, ht']
    exact ⟨.refl _, htt⟩
  · rw [ht, ht', h.index]
    dsimp only
    obtain ⟨u, u', hu, hu', huu⟩ | ⟨u, u', hu, hu', huu⟩ :=
      (htt.checkResolves hs hn.first r'.index).boolCases
    · rw [hu, hu']
      exact huu.readCallOf hs hnested hn _
    · rw [hu, hu']
      exact ⟨.name (L.text_identifier hn.first), huu.skipToEnd⟩

theorem readConstruct (h : L.Readers r r') (hs : L.Scopes s s')
    (hnested : L.SliceReaders nested nested') :
    L.Results L.Expressions (r.readConstruct s nested) (r'.readConstruct s' nested') := by
  rw [Reader.readConstruct, Reader.readConstruct]
  obtain ⟨t, t', ht, ht', htt⟩ | ⟨p, q, t, t', ht, ht', hp, htt⟩ := h.next.cases
  · rw [ht, ht']
    exact ⟨.refl _, htt⟩
  · rw [ht, ht', h.index]
    dsimp only
    have hname := hs.firstCode hp
    obtain ⟨hm, hm'⟩ | ⟨m, m', hm, hm', hmember⟩ :=
      rel_cases (rel_filter (fun _ _ hm => Members.isStruct hm) (hs.member? hp))
    · rw [hm, hm']
      exact ⟨.construct hname .nil, (htt.report (.notStruct hp) _).skipToEnd⟩
    · rw [hm, hm']
      have happlied := htt.readApplied hnested hmember hname r'.index
      exact ⟨.construct hname happlied.value, happlied.reader⟩

end Readers

/-! ## Compound expressions -/

/-- An operator with the pixels after it. -/
def Segments (L : Likeness) (x y : Operator × List Pixel) : Prop :=
  x.1 = y.1 ∧ List.Forall₂ L.pixel x.2 y.2

theorem splitOperators_alike (h : List.Forall₂ L.pixel ps qs) :
    List.Forall₂ L.pixel (splitOperators ps).1 (splitOperators qs).1 ∧
      List.Forall₂ L.Segments (splitOperators ps).2 (splitOperators qs).2 := by
  induction h with
  | nil => exact ⟨.nil, .nil⟩
  | cons hp _ ih =>
    rw [splitOperators, splitOperators, eq_of_kind Pixel.operator? (fun _ => rfl) hp]
    dsimp only
    split
    · exact ⟨.nil, .cons ⟨rfl, ih.1⟩ ih.2⟩
    · exact ⟨.cons hp ih.1, ih.2⟩

namespace Readers

variable {nested nested' : SliceReader}

theorem readOperands (hnested : L.SliceReaders nested nested')
    {more more' : List (Operator × List Pixel)} (hmore : List.Forall₂ L.Segments more more')
    (before : Option Operator) (start length : Nat) (h : L.Readers r r') :
    L.Results (List.Forall₂ L.CompoundParts) (r.readOperands nested more before start length)
      (r'.readOperands nested' more' before start length) := by
  induction hmore generalizing before start length r r' with
  | nil =>
    have hslice := h.readSlice hnested start (start + length)
    rw [Reader.readOperands, Reader.readOperands]
    dsimp only
    split
    · rw [hslice.value.isEmpty]
      split
      · exact ⟨.cons (.operand hslice.value) .nil, hslice.reader.report (.same _) _⟩
      · exact ⟨.cons (.operand hslice.value) .nil, hslice.reader⟩
    · exact ⟨.cons (.operand hslice.value) .nil, hslice.reader⟩
  | @cons x y more more' hxy _ ih =>
    obtain ⟨op, segment⟩ := x
    obtain ⟨op', segment'⟩ := y
    obtain ⟨rfl, hsegment⟩ := hxy
    have hslice := h.readSlice hnested start (start + length)
    have hrest := ih (some op) (start + length + 1) segment'.length hslice.reader
    rw [Reader.readOperands, Reader.readOperands, List.Forall₂.length_eq hsegment]
    exact ⟨.cons (.operand hslice.value) (.cons (.operator op) hrest.value), hrest.reader⟩

theorem readCompound (h : L.Readers r r') (hnested : L.SliceReaders nested nested') :
    L.Results L.Expressions (r.readCompound nested) (r'.readCompound nested') := by
  obtain ⟨hsegment, hmore⟩ := splitOperators_alike h.remaining
  have hparts := readOperands hnested hmore none r'.index
    (splitOperators r'.remaining).1.length h
  rw [Reader.readCompound, Reader.readCompound, h.index]
  dsimp only
  rw [hsegment.length_eq]
  exact ⟨.compound hparts.value, hparts.reader.skipToEnd⟩

/-! ## All expressions -/

theorem readShape (h : L.Readers r r') (hs : L.Scopes s s')
    (hnested : L.SliceReaders nested nested') (shape : Shape) :
    L.Results L.Expressions (r.readShape s nested shape) (r'.readShape s' nested' shape) := by
  cases shape with
  | string => exact h.readString hs
  | number => exact h.readNumber
  | boolean => exact h.readBoolean
  | call => exact h.readCall hs hnested
  | construct => exact h.readConstruct hs hnested
  | compound => exact h.readCompound hnested
  | empty => exact ⟨.refl _, h⟩

theorem finish (h : L.Readers r r') : L.Readers r.finish r'.finish := by
  rw [Reader.finish, Reader.finish]
  obtain ⟨hn, hn'⟩ | ⟨p, q, hp, hq, hpq⟩ := rel_cases h.peek
  · rw [hn, hn']
    exact h
  · rw [hp, hq, h.index]
    exact (h.report (.leftOver hpq) _).skipToEnd

theorem readWith (h : L.Readers r r') (hs : L.Scopes s s')
    (hnested : L.SliceReaders nested nested') (shape : Shape) :
    L.Results L.Expressions (r.readWith s nested shape) (r'.readWith s' nested' shape) :=
  have hshape := h.readShape hs hnested shape
  ⟨hshape.value, hshape.reader.finish⟩

theorem evalSlice (hs : L.Scopes s s') (depth : Nat) :
    L.SliceReaders (Reader.evalSlice s depth) (Reader.evalSlice s' depth) := by
  induction depth with
  | zero => exact fun r r' h => ⟨.refl _, h⟩
  | succ depth ih =>
    intro r r' h
    rw [Reader.evalSlice, Reader.evalSlice, h.analyze hs]
    exact h.readWith hs ih _

theorem evalAs (h : L.Readers r r') (hs : L.Scopes s s') (shape : Shape) :
    L.Results L.Expressions (r.evalAs s shape) (r'.evalAs s' shape) :=
  h.readWith hs (evalSlice hs sliceDepth) shape

/-- **Expressions** are read alike in scopes that are alike. -/
theorem eval (h : L.Readers r r') (hs : L.Scopes s s') :
    L.Results L.Expressions (r.eval s) (r'.eval s') := by
  rw [Reader.eval, Reader.eval, h.analyze hs]
  exact h.evalAs hs _

end Readers

end PixelLang.Likeness
