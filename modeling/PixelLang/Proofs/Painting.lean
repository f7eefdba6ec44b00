import PixelLang.Language

/-!
# What libraries add to a language

A library adds colours to the scheme and functions to the global scope. The keys of its colours are
of the same map as the fixed keys of the language, and its colours may be those of other keys.

* `classify_eq`: first the fixed keys decide on a colour (`grammarKind?`), and library symbols,
  characters and names are what they leave.
* `Language.grammar_kept`: the fixed keys all have a swatch before the first library is asked, so
  one more library changes nothing that they decide.
* `Language.get?_globalScope`: a colour of several functions is bound to the last of them.
* `Language.library_bound`: so a library symbol calls the function of its key unless a function of
  another key has the colour too.
-/

set_option autoImplicit false

namespace PixelLang

namespace Scheme

/-! ## Fixed keys -/

/-- The keys that the language itself gives a meaning to, one by one. -/
def fixedKeys : List String :=
  [blankKey, boolKey true, boolKey false] ++ Operator.all.map (·.key) ++ Keyword.all.map (·.key)

theorem isFixedKey_iff (key : String) : isFixedKey key ↔ key ∈ fixedKeys := by
  simp only [isFixedKey, fixedKeys, Bool.or_eq_true, beq_iff_eq, List.any_eq_true,
    List.mem_append, List.mem_map, List.mem_cons, List.not_mem_nil, or_false, or_assoc]

/-- The standard scheme has a swatch for every fixed key. -/
theorem isSome_get?_standard {key : String} (h : isFixedKey key) :
    (standard.get? key).isSome := by
  have hall : (fixedKeys.all fun key => (standard.get? key).isSome) = true := by decide +kernel
  exact List.all_eq_true.1 hall key ((isFixedKey_iff key).1 h)

theorem isFixedKey_operator (op : Operator) : isFixedKey op.key := by
  cases op <;> decide

theorem isFixedKey_keyword (k : Keyword) : isFixedKey k.key := by
  cases k <;> decide

end Scheme

/-! ## What the fixed keys decide -/

/-- The fixed keys decide on this kind. -/
def PixelKind.isGrammar : PixelKind → Bool
  | blank | boolean _ | operator _ | keyword _ => true
  | library _ | character _ | symbol => false

/-- The kind of a colour that a fixed key paints. -/
def grammarKind? (scheme : Scheme) (catalog : Catalog) (c : Colour) : Option PixelKind :=
  if isBlankColour scheme c then some .blank
  else if scheme.paints (Scheme.boolKey true) c then some (.boolean true)
  else if scheme.paints (Scheme.boolKey false) c then some (.boolean false)
  else
    match Operator.all.find? fun op => scheme.paints op.key c with
    | some op => some (.operator op)
    | none => (catalog.byColour? scheme c).map .keyword

theorem classify_eq (scheme : Scheme) (catalog : Catalog) (c : Colour) :
    classify scheme catalog c = (grammarKind? scheme catalog c).getD (classifyOpen scheme c) := by
  unfold classify grammarKind?
  split
  · rfl
  split
  · rfl
  split
  · rfl
  cases Operator.all.find? fun op => scheme.paints op.key c with
  | some op => rfl
  | none => cases catalog.byColour? scheme c <;> rfl

theorem isGrammar_classifyOpen (scheme : Scheme) (c : Colour) :
    (classifyOpen scheme c).isGrammar = false := by
  unfold classifyOpen
  split
  · rfl
  · split <;> rfl

theorem isGrammar_of_grammarKind? {scheme : Scheme} {catalog : Catalog} {c : Colour}
    {kind : PixelKind} (h : grammarKind? scheme catalog c = some kind) : kind.isGrammar := by
  unfold grammarKind? at h
  split at h
  · exact Option.some.inj h ▸ rfl
  split at h
  · exact Option.some.inj h ▸ rfl
  split at h
  · exact Option.some.inj h ▸ rfl
  split at h
  · exact Option.some.inj h ▸ rfl
  · obtain ⟨k, -, rfl⟩ := Option.map_eq_some_iff.1 h
    rfl

/-- Being of a kind of the fixed keys is decided by them alone. -/
theorem classify_eq_iff {kind : PixelKind} (h : kind.isGrammar) (scheme : Scheme)
    (catalog : Catalog) (c : Colour) :
    classify scheme catalog c = kind ↔ grammarKind? scheme catalog c = some kind := by
  rw [classify_eq]
  cases hk : grammarKind? scheme catalog c with
  | some kind' => simp
  | none =>
    have hopen := isGrammar_classifyOpen scheme c
    constructor
    · rintro rfl
      simp [hopen] at h
    · intro hnone
      cases hnone

/-- Schemes that agree on the fixed keys decide alike. -/
theorem grammarKind?_congr {s t : Scheme}
    (h : ∀ key, Scheme.isFixedKey key → s.get? key = t.get? key) (catalog : Catalog) (c : Colour) :
    grammarKind? s catalog c = grammarKind? t catalog c := by
  have hpaints : ∀ key, Scheme.isFixedKey key → s.paints key c = t.paints key c := by
    intro key hkey
    rw [Scheme.paints, Scheme.paints, h key hkey]
  have hoperators : (fun op : Operator => s.paints op.key c) = fun op => t.paints op.key c :=
    funext fun op => hpaints op.key (Scheme.isFixedKey_operator op)
  have hkeywords : (fun k : Keyword => s.paints k.key c) = fun k => t.paints k.key c :=
    funext fun k => hpaints k.key (Scheme.isFixedKey_keyword k)
  have hblank : isBlankColour s c = isBlankColour t c := by
    rw [isBlankColour, isBlankColour, hpaints Scheme.blankKey (by decide)]
  rw [grammarKind?, grammarKind?, hblank, hpaints (Scheme.boolKey true) (by decide),
    hpaints (Scheme.boolKey false) (by decide), hoperators, Catalog.byColour?, Catalog.byColour?,
    hkeywords]

namespace Language

/-! ## One more library -/

theorem scheme_build (scheme : Scheme) (catalog : Catalog) (libraries : List Library) :
    (build scheme catalog libraries).scheme =
      (Library.standard :: libraries).foldl (fun s library => library.paint s)
        (scheme.fill .standard) := by
  simp only [build]

theorem scheme_build_append (scheme : Scheme) (catalog : Catalog) (libraries : List Library)
    (library : Library) :
    (build scheme catalog (libraries ++ [library])).scheme =
      library.paint (build scheme catalog libraries).scheme := by
  rw [scheme_build, scheme_build, ← List.cons_append, List.foldl_append, List.foldl_cons,
    List.foldl_nil]

/-- Painting keeps the swatches that are there. -/
theorem get?_paint {s : Scheme} {key : String} {swatch : Swatch} (h : s.get? key = some swatch)
    (library : Library) : (library.paint s).get? key = some swatch := by
  rw [Library.paint, Scheme.get?_fill, h]
  rfl

theorem isSome_get?_foldl_paint {s : Scheme} {key : String} (h : (s.get? key).isSome)
    (libraries : List Library) :
    ((libraries.foldl (fun s library => library.paint s) s).get? key).isSome := by
  induction libraries generalizing s with
  | nil => exact h
  | cons library libraries ih =>
    obtain ⟨swatch, hswatch⟩ := Option.isSome_iff_exists.1 h
    exact ih (by rw [get?_paint hswatch]; rfl)

/-- In a language that is built every fixed key has a swatch. -/
theorem isSome_get?_build (scheme : Scheme) (catalog : Catalog) (libraries : List Library)
    {key : String} (h : Scheme.isFixedKey key) :
    ((build scheme catalog libraries).scheme.get? key).isSome := by
  have hfill : ((scheme.fill .standard).get? key).isSome := by
    rw [Scheme.get?_fill, Option.isSome_or, Scheme.isSome_get?_standard h, Bool.or_true]
  rw [scheme_build]
  exact isSome_get?_foldl_paint hfill _

/-- **A library changes nothing of the grammar and of the scheme.** Whatever the keys and colours of
one more library are, a key that has a swatch keeps it, and the same colours are blank, a boolean,
an operator or a keyword, and the same one, as without the library. -/
theorem grammar_kept (scheme : Scheme) (catalog : Catalog) (libraries : List Library)
    (library : Library) :
    (∀ key swatch, (build scheme catalog libraries).scheme.get? key = some swatch →
      (build scheme catalog (libraries ++ [library])).scheme.get? key = some swatch) ∧
    ∀ (c : Colour) (kind : PixelKind), kind.isGrammar →
      (classify (build scheme catalog libraries).scheme catalog c = kind ↔
        classify (build scheme catalog (libraries ++ [library])).scheme catalog c = kind) := by
  rw [scheme_build_append]
  refine ⟨fun key swatch h => get?_paint h library, fun c kind hkind => ?_⟩
  rw [classify_eq_iff hkind, classify_eq_iff hkind]
  have hkept : ∀ key, Scheme.isFixedKey key →
      (build scheme catalog libraries).scheme.get? key =
        (library.paint (build scheme catalog libraries).scheme).get? key := by
    intro key hkey
    obtain ⟨swatch, hswatch⟩ :=
      Option.isSome_iff_exists.1 (isSome_get?_build scheme catalog libraries hkey)
    rw [get?_paint hswatch, hswatch]
  rw [grammarKind?_congr hkept]

/-- A library that gives the key of an operator a colour and a function. -/
def plusLibrary : Library where
  name := "plus"
  space := "op"
  functions := [⟨"plus", "add", [.arity 2]⟩]
  colours := Scheme.empty.set "plus" (.ofColours [Scheme.solid 0x123456])

theorem grammar_plusLibrary :
    plusLibrary.keyedColours.get? Operator.plus.key = some (.ofColours [Scheme.solid 0x123456]) ∧
      classify (build .empty .standard ([] ++ [plusLibrary])).scheme .standard
        (Scheme.solid 0xFF3300) = .operator .plus ∧
      classify (build .empty .standard ([] ++ [plusLibrary])).scheme .standard
        (Scheme.solid 0x123456) ≠ .operator .plus := by
  have hkept := (grammar_kept .empty .standard [] plusLibrary).2
  obtain ⟨hplus, hother⟩ : classify Language.standard.scheme .standard (Scheme.solid 0xFF3300) =
        .operator .plus ∧
      classify Language.standard.scheme .standard (Scheme.solid 0x123456) ≠ .operator .plus := by
    decide +kernel
  exact ⟨by decide +kernel, (hkept _ _ rfl).1 hplus, fun h => hother ((hkept _ _ rfl).2 h)⟩

/-! ## The functions of the libraries -/

/-- The functions of the libraries, in the order in which they are bound. -/
def functions (l : Language) : List (Library × LibraryFunction) :=
  l.libraries.flatMap fun library => library.functions.map fun f => (library, f)

/-- The scheme gives the key of the function this colour. -/
def gives (l : Language) (c : Colour) (offer : Library × LibraryFunction) : Bool :=
  l.scheme.paints (offer.1.key offer.2.name) c

theorem get?_foldl_insert (hexes : List String) (m : Member) (b : Bindings) (key : String) :
    (hexes.foldl (fun b hex => b.insert hex m) b).get? key =
      if key ∈ hexes then some m else b.get? key := by
  induction hexes generalizing b with
  | nil => simp
  | cons hex hexes ih =>
    rw [List.foldl_cons, ih, Bindings.get?_insert]
    by_cases hmem : key ∈ hexes <;> by_cases heq : key = hex <;> simp [hmem, heq]

/-- Binding a function binds the colours that the scheme gives its key. -/
theorem get?_bindFunction (l : Language) (b : Bindings) (offer : Library × LibraryFunction)
    (c : Colour) :
    (offer.1.bindFunction l.scheme b offer.2).get? c.hex =
      if l.gives c offer then some offer.2.member else b.get? c.hex := by
  unfold Library.bindFunction gives Scheme.paints
  cases l.scheme.get? (offer.1.key offer.2.name) with
  | none => simp
  | some swatch => simp [get?_foldl_insert, Swatch.holds]

/-- Of the functions that have the colour, the one that is bound last replaces the others. -/
theorem get?_foldl_bindFunction (l : Language) (offers : List (Library × LibraryFunction))
    (b : Bindings) (c : Colour) :
    (offers.foldl (fun b offer => offer.1.bindFunction l.scheme b offer.2) b).get? c.hex =
      ((offers.filter (l.gives c)).getLast?.map (·.2.member)).or (b.get? c.hex) := by
  induction offers generalizing b with
  | nil => simp
  | cons offer offers ih =>
    rw [List.foldl_cons, ih, get?_bindFunction]
    cases hlast : (offers.filter (l.gives c)).getLast? with
    | none =>
      rw [List.getLast?_eq_none_iff] at hlast
      by_cases hgives : l.gives c offer <;> simp [hgives, hlast]
    | some last =>
      by_cases hgives : l.gives c offer <;> simp [hgives, hlast, List.getLast?_cons]

theorem get?_globalScope (l : Language) (c : Colour) :
    l.globalScope.get? c.hex = (l.functions.filter (l.gives c)).getLast?.map (·.2.member) := by
  have hfold : l.globalBindings =
      l.functions.foldl (fun b offer => offer.1.bindFunction l.scheme b offer.2) .empty := by
    simp only [functions, List.foldl_flatMap, List.foldl_map]
    rfl
  have hget : l.globalScope.get? c.hex = l.globalBindings.get? c.hex := rfl
  rw [hget, hfold, get?_foldl_bindFunction]
  simp [Bindings.get?, Bindings.empty]

/-! ## Library symbols -/

/-- The key of a library symbol is looked up as a swatch that holds its colour. -/
theorem paints_of_classify {scheme : Scheme} {catalog : Catalog} {c : Colour} {key : String}
    (hkind : classify scheme catalog c = .library key) : scheme.paints key c := by
  rw [classify_eq] at hkind
  cases hgrammar : grammarKind? scheme catalog c with
  | some kind =>
    rw [hgrammar, Option.getD_some] at hkind
    have hfixed := isGrammar_of_grammarKind? hgrammar
    simp [hkind, PixelKind.isGrammar] at hfixed
  | none =>
    rw [hgrammar, Option.getD_none, classifyOpen] at hkind
    split at hkind
    · rename_i key' swatch hfind
      obtain rfl : key' = key := PixelKind.library.inj hkind
      have hholds := List.find?_some hfind
      have hmem := (List.mem_filter.1 (List.mem_of_find?_eq_some hfind)).1
      rw [Scheme.paints, Scheme.mem_entries_iff.1 hmem]
      exact hholds
    · split at hkind <;> cases hkind

/-- **What a library symbol is bound to.** Its colour is bound to the last function, in the order of
the libraries and of the functions of each, that has the colour. This is a function of the key that
the colour is classified by unless a function of another key has the colour, too. -/
theorem library_bound {l : Language} {c : Colour} {key : String}
    (hkind : classify l.scheme l.catalog c = .library key)
    (hkey : ∃ library ∈ l.libraries, ∃ f ∈ library.functions, library.key f.name = key) :
    ∃ before library f after,
      l.functions = before ++ (library, f) :: after ∧ l.gives c (library, f) ∧
      (∀ offer ∈ after, l.gives c offer = false) ∧
      l.globalScope.get? c.hex = some (.func f.target f.overloads true) ∧
      ((∀ offer ∈ l.functions, l.gives c offer → offer.1.key offer.2.name = key) →
        library.key f.name = key) := by
  obtain ⟨library, hlibrary, f, hf, rfl⟩ := hkey
  have hoffer : (library, f) ∈ l.functions.filter (l.gives c) :=
    List.mem_filter.2 ⟨List.mem_flatMap_of_mem hlibrary (List.mem_map_of_mem hf),
      paints_of_classify hkind⟩
  -- some function has the colour, so one is the last
  obtain ⟨⟨library', f'⟩, hlast⟩ : ∃ last, (l.functions.filter (l.gives c)).getLast? = some last :=
    Option.ne_none_iff_exists'.1 fun hnone => by
      rw [List.getLast?_eq_none_iff.1 hnone] at hoffer
      exact absurd hoffer List.not_mem_nil
  obtain ⟨before, after, hsplit, hgives, hafter⟩ : ∃ before after,
      l.functions = before ++ (library', f') :: after ∧ l.gives c (library', f') ∧
        ∀ offer ∈ after, l.gives c offer = false := by
    obtain ⟨others, hfilter⟩ := List.getLast?_eq_some_iff.1 hlast
    obtain ⟨first, second, hfirst, -, hsecond⟩ := List.filter_eq_append_iff.1 hfilter
    obtain ⟨middle, after, hmiddle, -, hgives, hnone⟩ := List.filter_eq_cons_iff.1 hsecond
    refine ⟨first ++ middle, after, by simp [hfirst, hmiddle], hgives, fun offer hafter => ?_⟩
    simpa using List.filter_eq_nil_iff.1 hnone offer hafter
  refine ⟨before, library', f', after, hsplit, hgives, hafter, ?_, fun hall => ?_⟩
  · rw [get?_globalScope, hlast]
    rfl
  · exact hall (library', f') (by simp [hsplit]) hgives

/-- The language of a scheme that gives two functions of the standard library one colour. -/
def sharing : Language :=
  build (Scheme.empty.set "stdlib.sqrt" (.ofColours [Scheme.solid 0xCC99FF])) .standard []

theorem sharing_spec :
    classify sharing.scheme sharing.catalog (Scheme.solid 0xCC99FF) = .library "stdlib.listOf" ∧
      sharing.globalScope.get? (Scheme.solid 0xCC99FF).hex =
        some (.func "sqrt" [.arity 1] true) := by
  decide +kernel

theorem exists_listOf_sharing : ∃ library ∈ sharing.libraries, ∃ f ∈ library.functions,
    library.key f.name = "stdlib.listOf" :=
  ⟨.standard, .head _, ⟨"listOf", "listOf", [.variadic 0]⟩, .head _, rfl⟩

theorem bound_sharing :
    classify sharing.scheme sharing.catalog (Scheme.solid 0xCC99FF) = .library "stdlib.listOf" ∧
      ∃ before library f after,
        sharing.functions = before ++ (library, f) :: after ∧ f.target = "sqrt" ∧
        sharing.gives (Scheme.solid 0xCC99FF) (library, f) ∧
        ∀ offer ∈ after, sharing.gives (Scheme.solid 0xCC99FF) offer = false := by
  obtain ⟨hkind, hget⟩ := sharing_spec
  obtain ⟨before, library, f, after, hsplit, hgives, hafter, hbound, -⟩ :=
    library_bound hkind exists_listOf_sharing
  rw [hget] at hbound
  exact ⟨hkind, before, library, f, after, hsplit, by grind, hgives, hafter⟩

/-- **A colour of two functions** is classified by the key that comes first, and bound to the
function that is bound last, which has another key. -/
theorem shared_colour :
    classify sharing.scheme sharing.catalog (Scheme.solid 0xCC99FF) = .library "stdlib.listOf" ∧
      (∃ library ∈ sharing.libraries, ∃ f ∈ library.functions,
        library.key f.name = "stdlib.listOf") ∧
      ¬ ∃ library ∈ sharing.libraries, ∃ f ∈ library.functions,
        library.key f.name = "stdlib.listOf" ∧
          sharing.globalScope.get? (Scheme.solid 0xCC99FF).hex =
            some (.func f.target f.overloads true) := by
  obtain ⟨hkind, hget⟩ := sharing_spec
  refine ⟨hkind, exists_listOf_sharing, ?_⟩
  rintro ⟨library, hlibrary, f, hf, hkey, hbound⟩
  obtain rfl : library = .standard := List.mem_singleton.1 hlibrary
  have hother : ∀ f ∈ Library.standard.functions,
      Library.standard.key f.name = "stdlib.listOf" → f.target ≠ "sqrt" := by decide
  rw [hget] at hbound
  exact hother f hf hkey (by grind)

end Language

end PixelLang
