import PixelLang.Proofs.Likeness.Expressions

/-!
# Statements alike

In contexts that are alike, readers that are alike give results that are: codes that stand for each
other, and the same names bound (`Readers.generate`). A generator branches on what is read and on
the keywords around it; names are compared by their keys.
-/

set_option autoImplicit false

namespace PixelLang.Likeness

variable (L : Likeness)

structure Contexts (ctx ctx' : Context) : Prop where
  scope : L.Scopes ctx.scope ctx'.scope
  previous : ctx.previous = ctx'.previous
  next : ctx.next = ctx'.next
  chain : ctx.chain = ctx'.chain
  declaresFunction : ctx.declaresFunction = ctx'.declaresFunction

structure Pendings (w w' : Pending) : Prop where
  key : L.key w.key w'.key
  name : L.text w.name w'.name

structure Generations (g g' : Generated) : Prop where
  code : L.text g.code g'.code
  definitions : List.Forall₂ L.Bound g.definitions g'.definitions
  parameters : List.Forall₂ L.Bound g.parameters g'.parameters
  pending : Option.Rel L.Pendings g.pending g'.pending

/-- The generator makes the same of what is alike. -/
def Respected (generator : Generator) : Prop :=
  ∀ ctx ctx' r r', L.Contexts ctx ctx' → L.Readers r r' →
    L.Results L.Generations (generator ctx r) (generator ctx' r')

variable {L} {p q : Pixel} {ps qs : List Pixel} {r r' : Reader}

theorem text_wrap (before after : String) {s s' : String} (h : L.text s s') :
    L.text (before ++ s ++ after) (before ++ s' ++ after) :=
  L.text_append (L.text_append (L.text_refl _) h) (L.text_refl _)

theorem Generations.ofCode {code code' : String} (h : L.text code code') :
    L.Generations { code } { code := code' } := ⟨h, .nil, .nil, .none⟩

/-! ## Tokens -/

namespace Readers

theorem ite {c c' : Prop} [Decidable c] [Decidable c'] (hc : c ↔ c') {t t' : Reader}
    (ht : L.Readers t t') (h : L.Readers r r') :
    L.Readers (if c then t else r) (if c' then t' else r') := by
  by_cases hpos : c
  · rw [if_pos hpos, if_pos (hc.mp hpos)]
    exact ht
  · rw [if_neg hpos, if_neg (mt hc.mpr hpos)]
    exact h

theorem readName (h : L.Readers r r') (k : Keyword) (token : Nat) :
    L.Results (Option.Rel L.pixel) (r.readName k token) (r'.readName k token) := by
  rw [Reader.readName, Reader.readName]
  obtain ⟨t, t', ht, ht', htt⟩ | ⟨p, q, t, t', ht, ht', hp, htt⟩ := h.next.cases
  · rw [ht, ht']
    exact ⟨.none, htt.reportIn _ (.same _) _⟩
  · rw [ht, ht']
    dsimp only
    rw [isSymbol_eq hp]
    split
    · exact ⟨.some hp, htt⟩
    · exact ⟨.none, htt.reportIn _ (.notName hp) _⟩

theorem readNamesStep (k : Keyword) (token : Nat) (x y : List Pixel × Reader) (p q : Pixel)
    (h : L.Results (List.Forall₂ L.pixel) x y) (hp : L.pixel p q) :
    L.Results (List.Forall₂ L.pixel) (Reader.readNamesStep k token x p)
      (Reader.readNamesStep k token y q) := by
  -- a name is listed already in both runs or in none
  have hlisted : x.1.any (·.hex == p.hex) = y.1.any (·.hex == q.hex) := by
    refine any_eq_of_forall₂ (fun a b hab => ?_) h.value
    rw [Bool.eq_iff_iff, beq_iff_eq, beq_iff_eq]
    exact L.key_eq_iff (L.key_hex hab) (L.key_hex hp)
  have hnext := h.reader.advance 1
  rw [Reader.readNamesStep, Reader.readNamesStep, isSymbol_eq hp, hlisted]
  split
  · exact ⟨h.value, hnext.reportIn _ (.notName hp) _⟩
  · split
    · exact ⟨h.value, hnext.report (.repeatedName hp) _⟩
    · exact ⟨List.rel_append h.value (.cons hp .nil), hnext⟩

theorem readNames (h : L.Readers r r') (k : Keyword) (token : Nat) :
    L.Results (List.Forall₂ L.pixel) (r.readNames k token) (r'.readNames k token) :=
  Results.foldl (readNamesStep k token) h.remaining ⟨.nil, h⟩

theorem rejectTrailing (h : L.Readers r r') (k : Keyword) :
    L.Readers (r.rejectTrailing k) (r'.rejectTrailing k) := by
  rw [Reader.rejectTrailing, Reader.rejectTrailing]
  obtain ⟨t, t', ht, ht', htt⟩ | ⟨p, q, t, t', ht, ht', hp, htt⟩ := h.next.cases
  · rw [ht, ht']
    exact htt
  · rw [ht, ht']
    exact (htt.reportIn _ (.trailing k hp) _).skipToEnd

theorem requireBody (h : L.Readers r r') (k : Keyword) (next : Option Keyword) :
    L.Readers (r.requireBody k next) (r'.requireBody k next) :=
  ite Iff.rfl (h.report (.same _) _) h

end Readers

/-! ## Variables and functions -/

theorem declareFunction_alike {existing existing' : Option Member}
    (hexisting : Option.Rel L.Members existing existing') (hp : L.pixel p q) (start : Nat)
    (h : L.Readers r r') :
    L.Results L.Generations (declareFunction existing p start r)
      (declareFunction existing' q start r') := by
  have hcode : L.text ("fun " ++ p.identifier) ("fun " ++ q.identifier) :=
    L.text_append (L.text_refl _) (L.text_identifier hp)
  -- A value after the name is reported and skipped.
  have hvalue : ∀ {t t' : Reader}, L.Readers t t' → ∀ template : Template,
      L.Readers
        (if t.hasNext then (t.reportIn template .valueOfFunction (.index t.index)).skipToEnd else t)
        (if t'.hasNext then (t'.reportIn template .valueOfFunction (.index t'.index)).skipToEnd
          else t') := by
    intro t t' ht template
    rw [ht.hasNext, ht.index]
    exact Readers.ite Iff.rfl (ht.reportIn _ (.same _) _).skipToEnd ht
  cases hexisting with
  | none =>
    have hpending : L.Pendings ⟨p.hex, p.identifier⟩ ⟨q.hex, q.identifier⟩ :=
      ⟨L.key_hex hp, L.text_identifier hp⟩
    exact ⟨⟨hcode, .nil, .nil, .some hpending⟩, hvalue h _⟩
  | some hm => exact ⟨.ofCode hcode, hvalue (h.report (.alreadyDefined hp hm) _) _⟩

theorem declareVariable_alike {s s' : Scope} (hs : L.Scopes s s')
    {existing existing' : Option Member} (hexisting : Option.Rel L.Members existing existing')
    (hp : L.pixel p q) (start : Nat) (h : L.Readers r r') :
    L.Results L.Generations (declareVariable s existing p start r)
      (declareVariable s' existing' q start r') := by
  have hvalue := h.eval hs
  have hname := L.text_identifier hp
  have hreader := Readers.ite (Bool.eq_iff_iff.mp hvalue.value.isEmpty)
    (hvalue.reader.reportIn (Keyword.declare.template.failedAt 2) (.missingValue hp) .cursor)
    hvalue.reader
  rw [declareVariable, declareVariable]
  cases hexisting with
  | none =>
    have hcode := L.text_append (text_wrap "var " " = " hname) hvalue.value.code
    exact ⟨⟨hcode, .cons ⟨L.key_hex hp, .var hname⟩ .nil, .nil, .none⟩, hreader⟩
  | some hm =>
    -- only variables can be assigned to, and members that are alike are of one sort
    have hreport := hreader.report (.notAssignable hp hm) (.index start)
    cases hm with
    | var hbound =>
      exact ⟨.ofCode (L.text_append (L.text_append hbound (L.text_refl _)) hvalue.value.code),
        hreader⟩
    | const => exact ⟨.ofCode (L.text_refl _), hreport⟩
    | func => exact ⟨.ofCode (L.text_refl _), hreport⟩
    | struct => exact ⟨.ofCode (L.text_refl _), hreport⟩

theorem respected_generateDeclare : L.Respected generateDeclare := by
  intro ctx ctx' r r' hctx h
  rw [generateDeclare, generateDeclare]
  obtain ⟨t, t', ht, ht', htt⟩ | ⟨p, q, t, t', ht, ht', hp, htt⟩ := (h.readName .declare 1).cases
  · rw [ht, ht']
    exact ⟨.ofCode (L.text_refl _), htt⟩
  · rw [ht, ht', hctx.next, h.index]
    have hexisting := hctx.scope.get? (L.key_hex hp)
    dsimp only
    split
    · exact declareFunction_alike hexisting hp _ htt
    · exact declareVariable_alike hctx.scope hexisting hp _ htt

/-! ## Calls, conditions and loops -/

theorem respected_generateCall : L.Respected generateCall := by
  intro ctx ctx' r r' hctx h
  have hrest := h.remaining
  have hcall := h.evalAs hctx.scope .call
  rw [generateCall, generateCall]
  generalize r.remaining = ps at hrest ⊢
  generalize r'.remaining = qs at hrest ⊢
  cases hrest with
  | nil => exact ⟨.ofCode (L.text_refl _), h.reportIn _ (.same _) _⟩
  | cons hp _ =>
    refine ⟨.ofCode hcall.value.code, ?_⟩
    dsimp only
    rw [hcall.value.isPlainName, hcall.reader.diagnostics.length_eq, h.diagnostics.length_eq,
      h.index]
    exact Readers.ite Iff.rfl (hcall.reader.report (.notFunction hp) _) hcall.reader

theorem respected_generatePrint : L.Respected generatePrint := by
  intro ctx ctx' r r' hctx h
  have hvalue := h.eval hctx.scope
  exact ⟨.ofCode (text_wrap _ _ hvalue.value.code), hvalue.reader⟩

/-- Reading a value that must not be missing. -/
theorem Readers.eval_reportIn {s s' : Scope} (h : L.Readers r r') (hs : L.Scopes s s')
    (template : Template) (problem : Problem) :
    L.Readers
      (if (r.eval s).1.isEmpty then (r.eval s).2.reportIn template problem .cursor
        else (r.eval s).2)
      (if (r'.eval s').1.isEmpty then (r'.eval s').2.reportIn template problem .cursor
        else (r'.eval s').2) := by
  have hvalue := h.eval hs
  exact Readers.ite (Bool.eq_iff_iff.mp hvalue.value.isEmpty)
    (hvalue.reader.reportIn _ (.same _) _) hvalue.reader

theorem respected_generateIf : L.Respected generateIf := by
  intro ctx ctx' r r' hctx h
  refine ⟨.ofCode (text_wrap _ _ (h.eval hctx.scope).value.code), ?_⟩
  rw [generateIf, generateIf, hctx.next]
  exact (h.eval_reportIn hctx.scope _ _).requireBody _ _

theorem respected_generateElse : L.Respected generateElse := by
  intro ctx ctx' r r' hctx h
  refine ⟨.ofCode (L.text_refl _), ?_⟩
  rw [generateElse, generateElse, hctx.next]
  exact (h.rejectTrailing _).requireBody _ _

theorem respected_generateForEach : L.Respected generateForEach := by
  intro ctx ctx' r r' hctx h
  have hreader := h.eval_reportIn hctx.scope (Keyword.forEach.template.failedAt 1)
    .missingCollection
  refine ⟨.ofCode (L.text_append (h.eval hctx.scope).value.code (L.text_refl _)), ?_⟩
  rw [generateForEach, generateForEach, hctx.next]
  exact Readers.ite Iff.rfl hreader (hreader.report (.same _) _)

theorem respected_generateWhile : L.Respected generateWhile := by
  intro ctx ctx' r r' hctx h
  have hvalue := h.eval hctx.scope
  rw [generateWhile, generateWhile, hctx.next]
  dsimp only
  rw [hvalue.value.isEmpty]
  refine ⟨.ofCode (text_wrap _ _ ?_), hvalue.reader.requireBody _ _⟩
  split
  · exact L.text_refl _
  · exact hvalue.value.code

/-! ## Leaving functions and loops -/

theorem respected_generateReturn : L.Respected generateReturn := by
  intro ctx ctx' r r' hctx h
  have hvalue := h.eval hctx.scope
  rw [generateReturn, generateReturn, hctx.scope.isNone_enclosing?]
  dsimp only
  rw [hvalue.value.isEmpty]
  refine ⟨.ofCode ?_, Readers.ite Iff.rfl (hvalue.reader.report (.same _) _) hvalue.reader⟩
  split
  · exact L.text_refl _
  · exact L.text_append (L.text_refl _) hvalue.value.code

theorem respected_generateBreak : L.Respected generateBreak := by
  intro ctx ctx' r r' hctx h
  have hreader := h.rejectTrailing .ret
  rw [generateBreak, generateBreak, hctx.scope.isNone_enclosing?]
  exact ⟨.ofCode (L.text_refl _), Readers.ite Iff.rfl (hreader.report (.same _) _) hreader⟩

theorem respected_generateLeave : L.Respected generateLeave := by
  intro ctx ctx' r r' hctx h
  rw [generateLeave, generateLeave, hctx.chain]
  split
  · exact respected_generateReturn ctx ctx' r r' hctx h
  · exact respected_generateBreak ctx ctx' r r' hctx h
  · exact ⟨.ofCode (L.text_refl _), (h.report (.same _) _).skipToEnd⟩

/-! ## Blocks and structs -/

theorem text_typedNames (lead : String) (h : List.Forall₂ L.pixel ps qs) :
    L.text (typedNames lead ps) (typedNames lead qs) :=
  text_intercalate _ (List.rel_map (fun _ _ hp => text_wrap _ _ (L.text_identifier hp)) h)

theorem text_openingCode {ctx ctx' : Context} (hctx : L.Contexts ctx ctx')
    (h : List.Forall₂ L.pixel ps qs) : L.text (openingCode ctx ps) (openingCode ctx' qs) := by
  rw [openingCode, openingCode, hctx.declaresFunction, hctx.previous, isEmpty_eq_of_forall₂ h]
  split
  · exact text_wrap _ _ (text_typedNames _ h)
  · split
    · exact text_wrap _ _ (text_intercalate _
        (List.rel_map (fun _ _ hp => L.text_identifier hp) h))
    · exact L.text_refl _

theorem respected_generateOpen : L.Respected generateOpen := by
  intro ctx ctx' r r' hctx h
  have hnames := h.readNames .blockOpen 1
  have hparameters : List.Forall₂ L.Bound
      ((r.readNames .blockOpen 1).1.map fun p => (p.hex, .const p.identifier))
      ((r'.readNames .blockOpen 1).1.map fun p => (p.hex, .const p.identifier)) :=
    List.rel_map (fun _ _ hp => ⟨L.key_hex hp, .const (L.text_identifier hp)⟩) hnames.value
  refine ⟨⟨text_openingCode hctx hnames.value, .nil, hparameters, .none⟩, ?_⟩
  rw [generateOpen, generateOpen, hctx.declaresFunction, hctx.previous]
  dsimp only
  rw [isEmpty_eq_of_forall₂ hnames.value]
  exact Readers.ite Iff.rfl hnames.reader (hnames.reader.report (.same _) _)

theorem respected_generateClose : L.Respected generateClose :=
  fun _ _ _ _ _ h => ⟨.ofCode (L.text_refl _), h.rejectTrailing _⟩

theorem Generations.struct (hp : L.pixel p q) (h : List.Forall₂ L.pixel ps qs) :
    L.Generations
      { code :=
          if ps.isEmpty then "class " ++ p.identifier
          else "class " ++ p.identifier ++ "(" ++ typedNames "var " ps ++ ")"
        definitions :=
          [(p.hex, .struct p.identifier ⟨ps.map fun p => .named p.identifier⟩)] }
      { code :=
          if qs.isEmpty then "class " ++ q.identifier
          else "class " ++ q.identifier ++ "(" ++ typedNames "var " qs ++ ")"
        definitions :=
          [(q.hex, .struct q.identifier ⟨qs.map fun p => .named p.identifier⟩)] } := by
  have hname := L.text_identifier hp
  have hhead := L.text_append (L.text_refl "class ") hname
  have hbuild : L.Overloads ⟨ps.map fun p => .named p.identifier⟩
      ⟨qs.map fun p => .named p.identifier⟩ :=
    List.rel_map (fun _ _ hfield => ⟨false, .some (L.text_identifier hfield)⟩) h
  refine ⟨?_, .cons ⟨L.key_hex hp, .struct hname hbuild⟩ .nil, .nil, .none⟩
  dsimp only
  rw [isEmpty_eq_of_forall₂ h]
  split
  · exact hhead
  · exact L.text_append (L.text_append (L.text_append hhead (L.text_refl _)) (text_typedNames _ h))
      (L.text_refl _)

theorem respected_generateStruct : L.Respected generateStruct := by
  intro ctx ctx' r r' hctx h
  rw [generateStruct, generateStruct]
  obtain ⟨t, t', ht, ht', htt⟩ | ⟨p, q, t, t', ht, ht', hp, htt⟩ := (h.readName .struct 1).cases
  · rw [ht, ht']
    exact ⟨.ofCode (L.text_refl _), htt⟩
  · rw [ht, ht', h.index]
    dsimp only
    obtain ⟨hn, hn'⟩ | ⟨m, m', hm, hm', hmember⟩ :=
      rel_cases (hctx.scope.get? (L.key_hex hp))
    · rw [hn, hn']
      have hfields := htt.readNames .struct 2
      exact ⟨.struct hp hfields.value, hfields.reader⟩
    · rw [hm, hm']
      have htaken := htt.report (.alreadyDefined hp hmember) (.index r'.index)
      have hfields := htaken.readNames .struct 2
      exact ⟨.struct hp hfields.value, hfields.reader⟩

/-! ## All statements -/

theorem respected_generator (k : Keyword) : L.Respected k.generator := by
  cases k with
  | declare => exact respected_generateDeclare
  | call => exact respected_generateCall
  | ifThen => exact respected_generateIf
  | orElse => exact respected_generateElse
  | forEach => exact respected_generateForEach
  | whileLoop => exact respected_generateWhile
  | ret => exact respected_generateLeave
  | blockOpen => exact respected_generateOpen
  | blockClose => exact respected_generateClose
  | print => exact respected_generatePrint
  | struct => exact respected_generateStruct

/-- **A statement** is generated alike in contexts that are alike. -/
theorem Readers.generate (h : L.Readers r r') (k : Keyword) {ctx ctx' : Context}
    (hctx : L.Contexts ctx ctx') :
    L.Results L.Generations (k.generate ctx r) (k.generate ctx' r') :=
  respected_generator k _ _ _ _ hctx h.next.reader

end PixelLang.Likeness
