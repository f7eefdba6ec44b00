import PixelLang.Proofs.Operands

/-!
# Flat expressions

However many pixels spell it, an expression that is read nests in a fixed way: operands in a
compound, arguments in a call or a struct, and nothing in these. An argument is cut off where its
dotted name ends, and the name is read to the same place, so that nothing is left in it to be an
argument of its own.

* `Expression.Occurs`: an expression anywhere in another one.
* `Expression.IsFlat`: what holds of each of them.
* `Reader.isAtom_of_argument`: the arguments that are read have no arguments.
* `eval_flat`: all expressions that are read are flat, and slices nest two deep.
-/

set_option autoImplicit false

namespace PixelLang

/-- The operand that a part is. -/
def CompoundPart.operand? : CompoundPart → Option Expression
  | operand e => some e
  | operator _ => none

namespace Expression

/-- The arguments of a call or of a struct. -/
def arguments : Expression → List Expression
  | call _ (some arguments) => arguments
  | construct _ arguments => arguments
  | _ => []

/-- The operands of a compound. -/
def operands : Expression → List Expression
  | compound parts => parts.filterMap CompoundPart.operand?
  | _ => []

/-- The expression is a part of another one, at any depth, or is the same. -/
inductive Occurs (d : Expression) : Expression → Prop
  | here : Occurs d d
  | argument {e a : Expression} : a ∈ e.arguments → Occurs d a → Occurs d e
  | operand {e o : Expression} : o ∈ e.operands → Occurs d o → Occurs d e

/-- A literal, a plain name, or a call or a struct without arguments. -/
def IsAtom : Expression → Prop
  | string _ | number _ | boolean _ | call _ none | call _ (some []) | construct _ [] => True
  | _ => False

/-- Operands with operators between them. -/
inductive Alternates : List CompoundPart → Prop
  | last (e : Expression) : Alternates [.operand e]
  | next (e : Expression) (op : Operator) {parts : List CompoundPart} :
      Alternates parts → Alternates (.operand e :: .operator op :: parts)

/-- The expression has operands and operators in turn, no operand of it is a compound and all its
arguments are atoms. -/
structure IsFlat (e : Expression) : Prop where
  alternates : ∀ parts, e = .compound parts → Alternates parts
  operands : ∀ o ∈ e.operands, o.shape ≠ .compound
  arguments : ∀ a ∈ e.arguments, a.IsAtom

theorem isAtom_iff {e : Expression} :
    e.IsAtom ↔ e.shape ≠ .compound ∧ e.shape ≠ .empty ∧ e.arguments = [] := by
  cases e with
  | call callee arguments =>
    rcases arguments with _ | _ | _ <;> simp [IsAtom, shape, Expression.arguments]
  | construct name arguments => cases arguments <;> simp [IsAtom, shape, Expression.arguments]
  | _ => simp [IsAtom, shape, Expression.arguments]

theorem arguments_eq_nil {e : Expression} (hcall : e.shape ≠ .call)
    (hconstruct : e.shape ≠ .construct) : e.arguments = [] := by
  cases e with
  | call callee arguments => exact absurd rfl hcall
  | construct name arguments => exact absurd rfl hconstruct
  | _ => rfl

theorem operands_eq_nil {e : Expression} (h : e.shape ≠ .compound) : e.operands = [] := by
  cases e with
  | compound parts => exact absurd rfl h
  | _ => rfl

/-- An expression that is not a compound and has only atoms as arguments is flat all over. -/
theorem isFlat_of_occurs {d e : Expression} (hshape : e.shape ≠ .compound)
    (hatoms : ∀ a ∈ e.arguments, a.IsAtom) (h : d.Occurs e) : d.IsFlat := by
  induction h with
  | here =>
    refine ⟨fun parts hparts => ?_, ?_, hatoms⟩
    · rw [hparts] at hshape
      exact absurd rfl hshape
    · rw [operands_eq_nil hshape]
      exact fun o ho => absurd ho List.not_mem_nil
  | @argument e a ha _ ih =>
    obtain ⟨hcompound, -, hnone⟩ := isAtom_iff.1 (hatoms a ha)
    refine ih hcompound ?_
    rw [hnone]
    exact fun b hb => absurd hb List.not_mem_nil
  | operand ho =>
    rw [operands_eq_nil hshape] at ho
    exact absurd ho List.not_mem_nil

end Expression

/-! ## Arguments -/

namespace Reader

open Expression

section
variable (scope : Scope) {r : Reader} {p : Pixel} {rest : List Pixel} {a : Expression}

theorem exists_span_of_readApplied (r : Reader) (m : Member) (name : String) (start : Nat)
    (h : a ∈ (r.readApplied (eval scope) m name start).1) :
    ∃ span ∈ (argumentSpans r.remaining).1, a = (evalAlone scope span).1 := by
  obtain ⟨t, ht, -⟩ := readApplied_eval scope r m name start
  rw [ht] at h
  obtain ⟨span, hspan, rfl⟩ := List.mem_map.1 h
  exact ⟨span, hspan, rfl⟩

theorem exists_span_of_readCall (hps : r.remaining = p :: rest)
    (h : a ∈ (r.readCall scope (eval scope)).1.arguments) :
    ∃ span ∈ (argumentSpans (rest.drop (dottedTail rest).length)).1,
      a = (evalAlone scope span).1 := by
  obtain ⟨t, ht, hleft, -⟩ := r.nextSequence_cons hps
  rw [readCall, ht] at h
  dsimp only at h
  split at h
  next _ u hresolves =>
    have hu : u.remaining = rest.drop (dottedTail rest).length := by
      rw [← hleft, ← t.remaining_checkResolves scope p r.index, hresolves]
    rw [readCallOf] at h
    dsimp only at h
    split at h
    next m _ =>
      rw [← hu]
      exact exists_span_of_readApplied scope u m _ _ h
    next _ => split at h <;> exact absurd h List.not_mem_nil
  next _ _ _ => exact absurd h List.not_mem_nil

theorem exists_span_of_readConstruct (hps : r.remaining = p :: rest)
    (h : a ∈ (r.readConstruct scope (eval scope)).1.arguments) :
    ∃ span ∈ (argumentSpans rest).1, a = (evalAlone scope span).1 := by
  have hrest : (r.advance 1).remaining = rest := by
    rw [remaining_advance, hps]
    rfl
  rw [readConstruct, r.next_cons hps] at h
  dsimp only at h
  split at h
  next m _ =>
    rw [← hrest]
    exact exists_span_of_readApplied scope _ m _ _ h
  next _ => exact absurd h List.not_mem_nil

/-- The arguments that are read are slices of the shape. -/
theorem exists_slice_of_argument (h : a ∈ (r.eval scope).1.arguments) :
    ∃ slice ∈ slicesOf (shapeOf scope r.remaining) r.remaining, a = (evalAlone scope slice).1 := by
  have hshape : (r.eval scope).1.shape = shapeOf scope r.remaining := shape_eval scope r
  have hvalue : (r.eval scope).1 =
      (r.readShape scope (eval scope) (shapeOf scope r.remaining)).1 :=
    (Alike.evalAs ⟨rfl, rfl⟩ scope (r.analyze scope)).value
  cases hps : r.remaining with
  | nil =>
    rw [hps] at hshape
    rw [arguments_eq_nil (by simp [hshape, shapeOf]) (by simp [hshape, shapeOf])] at h
    exact absurd h List.not_mem_nil
  | cons p rest =>
    rw [hps] at hshape hvalue
    cases hcase : shapeOf scope (p :: rest) with
    | string | number | boolean | compound | empty =>
      rw [arguments_eq_nil (by simp [hshape, hcase]) (by simp [hshape, hcase])] at h
      exact absurd h List.not_mem_nil
    | call =>
      rw [hvalue, hcase] at h
      exact exists_span_of_readCall scope hps h
    | construct =>
      rw [hvalue, hcase] at h
      exact exists_span_of_readConstruct scope hps h

theorem shape_ne_compound (hop : ∀ p ∈ r.remaining, p.isOperator = false) :
    (r.eval scope).1.shape ≠ .compound := by
  rw [shape_eval, analyze]
  intro hcompound
  obtain ⟨p, hp, hpop⟩ := List.any_eq_true.1 (shapeOf_eq_compound_iff.1 hcompound)
  rw [hop p hp] at hpop
  contradiction

/-- Without operators, the arguments that are read have no arguments themselves. -/
theorem isAtom_of_argument (hop : ∀ p ∈ r.remaining, p.isOperator = false)
    (h : a ∈ (r.eval scope).1.arguments) : a.IsAtom := by
  obtain ⟨slice, hslice, rfl⟩ := exists_slice_of_argument scope h
  obtain ⟨pixels, hsub, hspan⟩ := exists_argumentSpans_of_slice hop hslice
  refine isAtom_iff.2 ⟨?_, fun hempty => ?_, ?_⟩
  · exact shape_ne_compound scope fun p hp => hop p (hsub (mem_of_mem_span hspan hp))
  · have hnil : (evalAlone scope slice).1.isEmpty = slice.isEmpty := isEmpty_eval scope _
    rw [isEmpty, hempty] at hnil
    exact span_ne_nil hspan (List.isEmpty_iff.1 hnil.symm)
  · refine List.eq_nil_iff_forall_not_mem.2 fun b hb => ?_
    obtain ⟨inner, hinner, -⟩ := exists_slice_of_argument scope hb
    have hnone : slicesOf (shapeOf scope slice) slice = [] := slicesOf_slice hop hslice
    exact absurd (hnone ▸ hinner) List.not_mem_nil

theorem isFlat_of_plain (hop : ∀ p ∈ r.remaining, p.isOperator = false) {d : Expression}
    (h : d.Occurs (r.eval scope).1) : d.IsFlat :=
  isFlat_of_occurs (shape_ne_compound scope hop) (fun _ => isAtom_of_argument scope hop) h

end

end Reader

/-! ## Rows -/

theorem alternates_terms (scope : Scope) (e : Expression) (terms : List OperatorTerm) :
    Expression.Alternates (.operand e :: terms.flatMap (OperatorTerm.parts scope)) := by
  induction terms generalizing e with
  | nil => exact .last e
  | cons t terms ih => exact .next e t.operator (ih _)

/-- An operand of a row is read from pixels without operators. -/
theorem OperatorRow.exists_plain_of_operand {scope : Scope} {row : OperatorRow} {o : Expression}
    (h : o ∈ (Expression.compound (row.parts scope)).operands) :
    ∃ segment : List Pixel, (∀ p ∈ segment, p.isOperator = false) ∧
      o = (Reader.evalAlone scope segment).1 := by
  obtain ⟨part, hpart, hoperand⟩ := List.mem_filterMap.1 h
  rcases List.mem_cons.1 hpart with rfl | hterms
  · exact ⟨row.first, row.plain, (Option.some.inj hoperand).symm⟩
  · obtain ⟨t, -, hpart⟩ := List.mem_flatMap.1 hterms
    rcases List.mem_pair.1 hpart with rfl | rfl
    · exact absurd hoperand (Option.some_ne_none o).symm
    · exact ⟨t.operand, t.plain, (Option.some.inj hoperand).symm⟩

theorem OperatorRow.isFlat_of_occurs (scope : Scope) (row : OperatorRow) {d : Expression}
    (h : d.Occurs (.compound (row.parts scope))) : d.IsFlat := by
  cases h with
  | here =>
    refine ⟨fun parts hparts => ?_, fun o ho => ?_, fun a ha => absurd ha List.not_mem_nil⟩
    · obtain rfl := Expression.compound.inj hparts
      exact alternates_terms scope _ row.terms
    · obtain ⟨segment, hplain, rfl⟩ := exists_plain_of_operand ho
      exact Reader.shape_ne_compound scope hplain
  | argument ha => exact absurd ha List.not_mem_nil
  | operand ho hd =>
    obtain ⟨segment, hplain, rfl⟩ := exists_plain_of_operand ho
    exact Reader.isFlat_of_plain scope (r := .ofPixels none segment) hplain hd

/-- **Expressions are flat.** However many pixels are read, and whatever they are: all compounds in
the expression have operands and operators in turn, none of their operands is a compound, and all
arguments in it are literals, names, or calls and structs without arguments. Slices are read in the
expression and in its slices, but not in those: what would read such a slice has no effect. -/
theorem eval_flat (scope : Scope) (r : Reader) :
    (∀ d : Expression, d.Occurs (r.eval scope).1 → d.IsFlat) ∧
      ∀ deeper : SliceReader,
        r.eval scope = r.readWith scope
          (fun slice => slice.readWith scope
            (fun inner => inner.readWith scope deeper (inner.analyze scope))
            (slice.analyze scope))
          (r.analyze scope) := by
  refine ⟨fun d hd => ?_, fun deeper => Reader.eval_eq_evalWithin scope deeper r⟩
  cases hop : r.remaining.any Pixel.isOperator with
  | true =>
    obtain ⟨row, hrow⟩ := OperatorRow.exists_pixels r.remaining
    rw [Reader.eval_row scope hrow hop] at hd
    exact row.isFlat_of_occurs scope hd
  | false =>
    refine Reader.isFlat_of_plain scope (fun p hp => ?_) hd
    simpa using List.any_eq_false.1 hop p hp

end PixelLang
