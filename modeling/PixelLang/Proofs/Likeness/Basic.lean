import Mathlib.Data.List.Forall2
import PixelLang.Expression.Read

/-!
# Likeness of two runs

Two programs that differ in detail are evaluated alike as long as no step looks at the detail. A
`Likeness` says what may differ: which pixels of the two programs, which keys and texts made of
them and which places in the images stand for each other. Its laws are all that an evaluation
relies on: the kinds of pixels are the same, keys are told apart alike, and a text is empty where
the other is.

The relation is carried from pixels to all that is made of them, one relation for each type. Here
are those of members, scopes and diagnostics, with what looking up and binding names do to them.
-/

set_option autoImplicit false

namespace PixelLang

/-! ## Lists and options -/

section
variable {α β γ : Type} {R : α → β → Prop} {as : List α} {bs : List β}

theorem map_eq_of_forall₂ {f : α → γ} {g : β → γ} (hfg : ∀ a b, R a b → f a = g b)
    (h : List.Forall₂ R as bs) : as.map f = bs.map g := by
  induction h with
  | nil => rfl
  | cons hab _ ih => rw [List.map_cons, List.map_cons, hfg _ _ hab, ih]

theorem any_eq_of_forall₂ {f : α → Bool} {g : β → Bool} (hfg : ∀ a b, R a b → f a = g b)
    (h : List.Forall₂ R as bs) : as.any f = bs.any g := by
  simpa [List.any_map, Function.comp_def] using
    congrArg (List.any · id) (map_eq_of_forall₂ hfg h)

theorem isEmpty_eq_of_forall₂ (h : List.Forall₂ R as bs) : as.isEmpty = bs.isEmpty := by
  cases h <;> rfl

theorem rel_getElem? (h : List.Forall₂ R as bs) (i : Nat) : Option.Rel R as[i]? bs[i]? := by
  induction h generalizing i with
  | nil => exact .none
  | cons hab _ ih =>
    cases i with
    | zero => exact .some hab
    | succ i => simpa using ih i

theorem rel_head? (h : List.Forall₂ R as bs) : Option.Rel R as.head? bs.head? := by
  cases h with
  | nil => exact .none
  | cons hab _ => exact .some hab

theorem rel_cases {a : Option α} {b : Option β} (h : Option.Rel R a b) :
    (a = none ∧ b = none) ∨ ∃ x y, a = some x ∧ b = some y ∧ R x y := by
  cases h with
  | none => exact .inl ⟨rfl, rfl⟩
  | some hxy => exact .inr ⟨_, _, rfl, rfl, hxy⟩

theorem isSome_eq_of_rel {a : Option α} {b : Option β} (h : Option.Rel R a b) :
    a.isSome = b.isSome := by
  cases h <;> rfl

theorem rel_or {a c : Option α} {b d : Option β} (h : Option.Rel R a b) (h' : Option.Rel R c d) :
    Option.Rel R (a.or c) (b.or d) := by
  cases h with
  | none => exact h'
  | some hab => exact .some hab

theorem rel_filter {f : α → Bool} {g : β → Bool} {a : Option α} {b : Option β}
    (hfg : ∀ a b, R a b → f a = g b) (h : Option.Rel R a b) :
    Option.Rel R (a.filter f) (b.filter g) := by
  cases h with
  | none => exact .none
  | some hab =>
    rw [Option.filter_some, Option.filter_some, hfg _ _ hab]
    split
    · exact .some hab
    · exact .none

end

/-! ## What may differ -/

/-- What stands for each other in two runs. -/
structure Likeness where
  pixel : Pixel → Pixel → Prop
  /-- The keys by which names are bound. -/
  key : String → String → Prop
  /-- Generated code and the names in it. -/
  text : String → String → Prop
  place : Nat × Nat → Nat × Nat → Prop
  kind_eq {p q : Pixel} : pixel p q → p.kind = q.kind
  key_hex {p q : Pixel} : pixel p q → key p.hex q.hex
  key_eq_iff {k k' m m' : String} : key k k' → key m m' → (k = m ↔ k' = m')
  text_identifier {p q : Pixel} : pixel p q → text p.identifier q.identifier
  text_refl (s : String) : text s s
  text_append {s s' t t' : String} : text s s' → text t t' → text (s ++ t) (s' ++ t')
  text_isEmpty {s s' : String} : text s s' → s.isEmpty = s'.isEmpty
  place_pixel {p q : Pixel} : pixel p q → place (p.x, p.y) (q.x, q.y)
  place_zero : place (0, 0) (0, 0)

namespace Likeness

variable (L : Likeness)

inductive Parameters : Parameter → Parameter → Prop
  | mk {name name' : Option String} (vararg : Bool) :
      Option.Rel L.text name name' → Parameters ⟨name, vararg⟩ ⟨name', vararg⟩

def Overloads (o o' : Overload) : Prop := List.Forall₂ L.Parameters o.parameters o'.parameters

inductive Members : Member → Member → Prop
  | var {name name' : String} : L.text name name' → Members (.var name) (.var name')
  | const {name name' : String} : L.text name name' → Members (.const name) (.const name')
  | func {name name' : String} {os os' : List Overload} (library : Bool) :
      L.text name name' → List.Forall₂ L.Overloads os os' →
        Members (.func name os library) (.func name' os' library)
  | struct {name name' : String} {build build' : Overload} :
      L.text name name' → L.Overloads build build' →
        Members (.struct name build) (.struct name' build')

/-- A key with its member. -/
def Bound (e e' : String × Member) : Prop := L.key e.1 e'.1 ∧ L.Members e.2 e'.2

structure Owners (o o' : Owner) : Prop where
  keyword : o.keyword = o'.keyword
  place : L.place (o.x, o.y) (o'.x, o'.y)

structure Frames (f f' : Frame) : Prop where
  owner : Option.Rel L.Owners f.owner f'.owner
  temporary : f.temporary = f'.temporary
  members : List.Forall₂ L.Bound f.members.entries f'.members.entries

structure Scopes (s s' : Scope) : Prop where
  frames : List.Forall₂ L.Frames s.frames s'.frames
  globals : List.Forall₂ L.Bound s.globals.entries s'.globals.entries

/-- The same problem of pixels, members and places that stand for each other. -/
inductive Problems : Problem → Problem → Prop
  | same (problem : Problem) : Problems problem problem
  | leftOver {p q : Pixel} : L.pixel p q → Problems (.leftOver p) (.leftOver q)
  | notInNumber {p q : Pixel} : L.pixel p q → Problems (.notInNumber p) (.notInNumber q)
  | notBoolean {p q : Pixel} : L.pixel p q → Problems (.notBoolean p) (.notBoolean q)
  | unresolved {p q : Pixel} : L.pixel p q → Problems (.unresolved p) (.unresolved q)
  | notFunction {p q : Pixel} : L.pixel p q → Problems (.notFunction p) (.notFunction q)
  | notStruct {p q : Pixel} : L.pixel p q → Problems (.notStruct p) (.notStruct q)
  | wrongArity {m m' : Member} {name name' : String} (found : Nat) : L.Members m m' →
      L.text name name' → Problems (.wrongArity m name found) (.wrongArity m' name' found)
  | notName {p q : Pixel} : L.pixel p q → Problems (.notName p) (.notName q)
  | repeatedName {p q : Pixel} : L.pixel p q → Problems (.repeatedName p) (.repeatedName q)
  | trailing {p q : Pixel} (k : Keyword) : L.pixel p q → Problems (.trailing p k) (.trailing q k)
  | alreadyDefined {p q : Pixel} {m m' : Member} : L.pixel p q → L.Members m m' →
      Problems (.alreadyDefined p m) (.alreadyDefined q m')
  | missingValue {p q : Pixel} : L.pixel p q → Problems (.missingValue p) (.missingValue q)
  | notAssignable {p q : Pixel} {m m' : Member} : L.pixel p q → L.Members m m' →
      Problems (.notAssignable m p) (.notAssignable m' q)
  | unclosedBlock {x y x' y' : Nat} : L.place (x, y) (x', y') →
      Problems (.unclosedBlock x y) (.unclosedBlock x' y')

structure Diagnostics (d d' : Diagnostic) : Prop where
  problem : L.Problems d.problem d'.problem
  place : L.place (d.x, d.y) (d'.x, d'.y)
  tokenIndex : d.tokenIndex = d'.tokenIndex
  keyword : d.keyword = d'.keyword
  template : d.template = d'.template

variable {L} {p q : Pixel} {k k' : String} {m m' : Member} {s s' : Scope}

/-! ## Pixels -/

/-- What is read off the kind of a pixel alone is the same. -/
theorem eq_of_kind {α : Type} (f : Pixel → α)
    (hf : ∀ p : Pixel, f p = f ⟨.transparent, 0, 0, p.kind⟩) (h : L.pixel p q) : f p = f q := by
  rw [hf p, hf q, L.kind_eq h]

theorem isSymbol_eq (h : L.pixel p q) : p.isSymbol = q.isSymbol :=
  eq_of_kind Pixel.isSymbol (fun _ => rfl) h

theorem isLibrary_eq (h : L.pixel p q) : p.isLibrary = q.isLibrary :=
  eq_of_kind Pixel.isLibrary (fun _ => rfl) h

theorem boolean?_eq (h : L.pixel p q) : p.boolean? = q.boolean? :=
  eq_of_kind Pixel.boolean? (fun _ => rfl) h

theorem character?_eq (h : L.pixel p q) : p.character? = q.character? :=
  eq_of_kind Pixel.character? (fun _ => rfl) h

theorem isCharacter_eq (h : L.pixel p q) : p.isCharacter = q.isCharacter :=
  eq_of_kind Pixel.isCharacter (fun _ => rfl) h

/-! ## Texts -/

theorem text_intercalate (separator : String) {texts texts' : List String}
    (h : List.Forall₂ L.text texts texts') :
    L.text (separator.intercalate texts) (separator.intercalate texts') := by
  induction h with
  | nil => exact L.text_refl _
  | cons hhead hrest ih =>
    cases hrest with
    | nil => simpa using hhead
    | cons =>
      rw [String.intercalate_cons_cons, String.intercalate_cons_cons]
      exact L.text_append (L.text_append hhead (L.text_refl _)) ih

theorem text_applied {name name' : String} {arguments arguments' : List String}
    (h : L.text name name') (harguments : List.Forall₂ L.text arguments arguments') :
    L.text (Expression.applied name arguments) (Expression.applied name' arguments') :=
  L.text_append (L.text_append (L.text_append h (L.text_refl _)) (text_intercalate _ harguments))
    (L.text_refl _)

/-! ## Members -/

theorem Overloads.accepts {o o' : Overload} (h : L.Overloads o o') (count : Nat) :
    o.accepts count = o'.accepts count := by
  have hvararg : o.parameters.map (·.vararg) = o'.parameters.map (·.vararg) :=
    map_eq_of_forall₂ (fun _ _ ⟨_, _⟩ => rfl) h
  have hvariadic : o.isVariadic = o'.isVariadic := by
    simpa [Overload.isVariadic, List.any_map, Function.comp_def] using
      congrArg (List.any · id) hvararg
  have hfixed : o.fixedCount = o'.fixedCount := by
    simpa [Overload.fixedCount, List.countP_map, Function.comp_def] using
      congrArg (List.countP (!·)) hvararg
  rw [Overload.accepts, Overload.accepts, hvariadic, hfixed, h.length_eq]

namespace Members

theorem refl (m : Member) : L.Members m m := by
  have hoverload : ∀ o : Overload, L.Overloads o o := by
    refine fun o => List.forall₂_same.mpr fun parameter _ => ⟨parameter.vararg, ?_⟩
    cases parameter.name with
    | none => exact .none
    | some name => exact .some (L.text_refl name)
  cases m with
  | var name => exact .var (L.text_refl name)
  | const name => exact .const (L.text_refl name)
  | func name os library =>
    exact .func library (L.text_refl name) (List.forall₂_same.mpr fun o _ => hoverload o)
  | struct name build => exact .struct (L.text_refl name) (hoverload build)

theorem name (h : L.Members m m') : L.text m.name m'.name := by
  cases h <;> assumption

theorem isStruct (h : L.Members m m') : m.isStruct = m'.isStruct := by
  cases h <;> rfl

theorem isFunction (h : L.Members m m') : m.isFunction = m'.isFunction := by
  cases h <;> rfl

theorem accepts (h : L.Members m m') (count : Nat) : m.accepts count = m'.accepts count := by
  have hoverloads : List.Forall₂ L.Overloads m.overloads m'.overloads := by
    cases h with
    | var => exact .nil
    | const => exact .nil
    | func _ _ hos => exact hos
    | struct _ hbuild => exact .cons hbuild .nil
  exact any_eq_of_forall₂ (fun _ _ ho => ho.accepts count) hoverloads

end Members

/-! ## Scopes -/

theorem rel_lookup {es es' : List (String × Member)} (h : List.Forall₂ L.Bound es es')
    (hk : L.key k k') : Option.Rel L.Members (es.lookup k) (es'.lookup k') := by
  induction h with
  | nil => exact .none
  | @cons e e' es es' he _ ih =>
    obtain ⟨key, m⟩ := e
    obtain ⟨key', m'⟩ := e'
    -- the entry is found in both runs or in none, since keys are told apart alike
    have hiff : k = key ↔ k' = key' := L.key_eq_iff hk he.1
    by_cases heq : k = key
    · obtain rfl := heq
      obtain rfl := hiff.mp rfl
      simpa [List.lookup_cons] using he.2
    · have heq' : ¬k' = key' := mt hiff.mpr heq
      simpa [List.lookup_cons, beq_eq_false_iff_ne.mpr heq, beq_eq_false_iff_ne.mpr heq'] using ih

theorem forall₂_insertEntry {es es' : List (String × Member)} (h : List.Forall₂ L.Bound es es')
    (hk : L.key k k') (hm : L.Members m m') :
    List.Forall₂ L.Bound (Bindings.insertEntry k m es) (Bindings.insertEntry k' m' es') := by
  induction h with
  | nil => exact .cons ⟨hk, hm⟩ .nil
  | @cons e e' es es' he hes ih =>
    have hiff := L.key_eq_iff hk he.1
    by_cases heq : k = e.1
    · have heq' := hiff.mp heq
      rw [Bindings.insertEntry, Bindings.insertEntry, if_pos heq, if_pos heq']
      exact .cons ⟨hk, hm⟩ hes
    · have heq' := mt hiff.mpr heq
      rw [Bindings.insertEntry, Bindings.insertEntry, if_neg heq, if_neg heq']
      exact .cons he ih

/-- The innermost frame that binds a key. -/
theorem rel_findSome? {fs fs' : List Frame} (h : List.Forall₂ L.Frames fs fs')
    (hk : L.key k k') :
    Option.Rel L.Members (fs.findSome? (·.members.get? k)) (fs'.findSome? (·.members.get? k')) := by
  induction h with
  | nil => exact .none
  | cons hf _ ih =>
    rw [List.findSome?_cons, List.findSome?_cons, Bindings.get?, Bindings.get?]
    obtain ⟨hn, hn'⟩ | ⟨m, m', hs, hs', hm⟩ := rel_cases (rel_lookup hf.members hk)
    · rw [hn, hn']
      exact ih
    · rw [hs, hs']
      exact .some hm

theorem isNone_enclosingFrame? {fs fs' : List Frame} (h : List.Forall₂ L.Frames fs fs')
    (keywords : Keyword → Bool) :
    (Scope.enclosingFrame? keywords fs).isNone = (Scope.enclosingFrame? keywords fs').isNone := by
  induction h with
  | nil => rfl
  | cons hf _ ih =>
    rw [Scope.enclosingFrame?, Scope.enclosingFrame?]
    obtain ⟨hn, hn'⟩ | ⟨o, o', hs, hs', ho⟩ := rel_cases hf.owner
    · rw [hn, hn']
      exact ih
    · rw [hs, hs']
      dsimp only
      rw [ho.keyword]
      split
      · rfl
      · exact ih

namespace Scopes

theorem get? (h : L.Scopes s s') (hk : L.key k k') :
    Option.Rel L.Members (s.get? k) (s'.get? k') := by
  rw [Scope.get?, Scope.get?]
  obtain ⟨hn, hn'⟩ | ⟨m, m', hs, hs', hm⟩ := rel_cases (rel_findSome? h.frames hk)
  · rw [hn, hn']
    exact rel_lookup h.globals hk
  · rw [hs, hs']
    exact .some hm

theorem define (h : L.Scopes s s') (hk : L.key k k') (hm : L.Members m m') :
    L.Scopes (s.define k m) (s'.define k' m') := by
  obtain ⟨frames, globals⟩ := s
  obtain ⟨frames', globals'⟩ := s'
  obtain ⟨hframes, hglobals⟩ := h
  cases hframes with
  | nil => exact ⟨.nil, forall₂_insertEntry hglobals hk hm⟩
  | cons hf houter =>
    exact ⟨.cons ⟨hf.owner, hf.temporary, forall₂_insertEntry hf.members hk hm⟩ houter, hglobals⟩

theorem defineAll {es es' : List (String × Member)} (h : L.Scopes s s')
    (hes : List.Forall₂ L.Bound es es') : L.Scopes (s.defineAll es) (s'.defineAll es') := by
  induction hes generalizing s s' with
  | nil => exact h
  | cons he _ ih => exact ih (h.define he.1 he.2)

theorem push (h : L.Scopes s s') {o o' : Option Owner} (ho : Option.Rel L.Owners o o')
    (temporary : Bool) : L.Scopes (s.push o temporary) (s'.push o' temporary) :=
  ⟨.cons ⟨ho, rfl, .nil⟩ h.frames, h.globals⟩

theorem depth (h : L.Scopes s s') : s.depth = s'.depth := h.frames.length_eq

theorem isNone_enclosing? (h : L.Scopes s s') (keywords : Keyword → Bool) :
    (s.enclosing? keywords).isNone = (s'.enclosing? keywords).isNone :=
  isNone_enclosingFrame? h.frames keywords

/-! ### Names -/

theorem member? (h : L.Scopes s s') (hp : L.pixel p q) :
    Option.Rel L.Members (s.member? p) (s'.member? q) := by
  rw [Scope.member?, Scope.member?, isSymbol_eq hp, isLibrary_eq hp]
  split
  · exact h.get? (L.key_hex hp)
  · exact .none

theorem nameOf? (h : L.Scopes s s') (hp : L.pixel p q) :
    Option.Rel L.text (s.nameOf? p) (s'.nameOf? q) := by
  rw [Scope.nameOf?, Scope.nameOf?, boolean?_eq hp]
  split
  · exact .some (L.text_refl _)
  · obtain ⟨hn, hn'⟩ | ⟨m, m', hs, hs', hm⟩ := rel_cases (h.member? hp)
    · rw [hn, hn']
      exact .none
    · rw [hs, hs']
      exact .some hm.name

theorem firstCode (h : L.Scopes s s') (hp : L.pixel p q) :
    L.text (s.firstCode p) (s'.firstCode q) := by
  rw [Scope.firstCode, Scope.firstCode]
  obtain ⟨hn, hn'⟩ | ⟨_, _, hs, hs', hname⟩ := rel_cases (h.nameOf? hp)
  · rw [hn, hn']
    exact L.text_identifier hp
  · rw [hs, hs']
    exact hname

theorem memberCode (h : L.Scopes s s') (hp : L.pixel p q) :
    L.text (s.memberCode p) (s'.memberCode q) := by
  rw [Scope.memberCode, Scope.memberCode, isLibrary_eq hp]
  obtain ⟨hn, hn'⟩ | ⟨m, m', hs, hs', hm⟩ := rel_cases (h.member? hp)
  · rw [hn, hn']
    exact L.text_identifier hp
  · rw [hs, hs']
    dsimp only
    split
    · exact hm.name
    · exact L.text_identifier hp

end Scopes

end Likeness

end PixelLang
