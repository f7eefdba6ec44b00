import PixelLang.Proofs.Slices

/-!
# The grammar of calls

A call is a dotted name and, if the name calls a member, the arguments of the member. The grammar
says which pixels are a call, without a cursor, slices or reports.

* `DottedName.Leads`: the dotted run at the front of some pixels, as long as it goes.
* `Atoms`: pixels as a row of arguments, each read as far as it goes.
* `CallForm`: what may stand after the name of a call.
* `call_grammar`: reading a call reports nothing exactly where the grammar admits the pixels, and
  the arguments that are read are the atoms, each read on its own.
-/

set_option autoImplicit false

namespace PixelLang

/-! ## Dotted names -/

/-- The pixels of dots, each with the pixel it joins. -/
def linkPixels (links : List (Pixel × Pixel)) : List Pixel :=
  links.flatMap fun link => [link.1, link.2]

/-- A dot and a pixel that it could join stand in front. -/
def joins : List Pixel → Bool
  | dot :: _ :: _ => dot.isDot
  | _ => false

/-- There is a dot and nothing else. -/
def isLoneDot : List Pixel → Bool
  | [dot] => dot.isDot
  | _ => false

/-- A pixel and the dots after it, each with the pixel it joins to the name. -/
structure DottedName where
  first : Pixel
  links : List (Pixel × Pixel)
  isDot : ∀ link ∈ links, link.1.isDot

namespace DottedName

def pixels (n : DottedName) : List Pixel := n.first :: linkPixels n.links

/-- The name without its dots. -/
def sequence (n : DottedName) : Sequence := ⟨n.first, n.links.map fun link => link.2⟩

def last (n : DottedName) : Pixel := n.pixels.getLast (List.cons_ne_nil _ _)

/-- The name is the dotted run in front of `pixels`, and `rest` is what stands after it. -/
structure Leads (n : DottedName) (pixels rest : List Pixel) : Prop where
  split : pixels = n.pixels ++ rest
  ends : joins rest = false

end DottedName

theorem exists_of_isLoneDot {pixels : List Pixel} (h : isLoneDot pixels) :
    ∃ dot : Pixel, pixels = [dot] ∧ dot.isDot := by
  match pixels with
  | [dot] => exact ⟨dot, rfl, h⟩

theorem operator?_dot {p : Pixel} (h : p.isDot) : p.operator? = none := by
  have hkind : p.kind = .operator .dot := eq_of_beq h
  simp [Pixel.operator?, hkind, Operator.isDot]

theorem length_linkPixels (links : List (Pixel × Pixel)) :
    (linkPixels links).length = 2 * links.length := by
  induction links with
  | nil => rfl
  | cons link links ih =>
    show (linkPixels links).length + 1 + 1 = 2 * (links.length + 1)
    omega

theorem dottedTail_linkPixels {links : List (Pixel × Pixel)} {rest : List Pixel}
    (hdots : ∀ link ∈ links, link.1.isDot) (hends : joins rest = false) :
    dottedTail (linkPixels links ++ rest) =
      ⟨links.map fun link => link.2, isLoneDot rest⟩ := by
  induction links with
  | nil =>
    match rest with
    | [] => rfl
    | [p] => rfl
    | p :: q :: more =>
      have hp : p.isDot = false := hends
      simp [linkPixels, dottedTail, isLoneDot, hp]
  | cons link links ih =>
    have hlink : link.1.isDot := hdots link (.head _)
    have hrest := ih fun link hmem => hdots link (.tail _ hmem)
    simp only [linkPixels, List.flatMap_cons, List.cons_append, List.nil_append] at hrest ⊢
    rw [dottedTail, if_pos hlink, hrest]
    rfl

/-- Every list of pixels starts with a run of dots and the pixels they join. -/
theorem exists_linkPixels (pixels : List Pixel) :
    ∃ links rest, (∀ link ∈ links, link.1.isDot) ∧ pixels = linkPixels links ++ rest ∧
      joins rest = false := by
  fun_induction dottedTail pixels with
  | case1 => exact ⟨[], [], by simp, rfl, rfl⟩
  | case2 p => exact ⟨[], [p], by simp, rfl, rfl⟩
  | case3 p member rest hp tail ih =>
    obtain ⟨links, rest', hdots, rfl, hends⟩ := ih
    refine ⟨(p, member) :: links, rest', ?_, rfl, hends⟩
    rintro link (_ | ⟨_, hmem⟩)
    · exact hp
    · exact hdots link hmem
  | case4 p member rest hp =>
    exact ⟨[], p :: member :: rest, by simp, rfl, by simpa [joins] using hp⟩

namespace DottedName

variable {n : DottedName} {pixels rest : List Pixel}

theorem exists_leads (first : Pixel) (pixels : List Pixel) :
    ∃ n rest, n.first = first ∧ Leads n (first :: pixels) rest := by
  obtain ⟨links, rest, hdots, hsplit, hends⟩ := exists_linkPixels pixels
  exact ⟨⟨first, links, hdots⟩, rest, rfl, congrArg (first :: ·) hsplit, hends⟩

theorem pixels_ne_nil (n : DottedName) : n.pixels ≠ [] := List.cons_ne_nil _ _

theorem getLastD_links (first : Pixel) (links : List (Pixel × Pixel)) :
    (links.map fun link => link.2).getLastD first =
      (first :: linkPixels links).getLast (List.cons_ne_nil _ _) := by
  induction links generalizing first with
  | nil => rfl
  | cons link links ih =>
    rw [List.map_cons, List.getLastD_cons, ih]
    rfl

/-- The last member of a name is its last pixel. -/
theorem last_sequence (n : DottedName) : n.sequence.last = n.last :=
  getLastD_links n.first n.links

/-- A dotted name is read up to its end, and with a dot that is left over. -/
theorem Leads.nextSequence {r : Reader} (h : n.Leads r.remaining rest) :
    ∃ t, r.nextSequence = (some n.sequence, t) ∧
      t.remaining = (if isLoneDot rest then [] else rest) ∧
      t.problems = r.problems ++ if isLoneDot rest then [.missingMember] else [] := by
  have hpixels : r.remaining = n.first :: (linkPixels n.links ++ rest) := h.split
  obtain ⟨t, ht, hremaining, hproblems⟩ := r.nextSequence_cons hpixels
  have htail := dottedTail_linkPixels n.isDot h.ends
  rw [htail] at ht hremaining hproblems
  refine ⟨t, ht, ?_, hproblems⟩
  rw [hremaining, DottedTail.length, List.length_map, ← length_linkPixels,
    List.drop_length_add_append]
  cases hlone : isLoneDot rest with
  | false => rfl
  | true =>
    obtain ⟨dot, rfl, -⟩ := exists_of_isLoneDot hlone
    rfl

end DottedName

/-! ## Reading without reports -/

namespace Reader

section
variable {P : Problem → Prop} {r s t : Reader}

theorem Reads.exists_problems (h : Reads P r s) : ∃ added, s.problems = r.problems ++ added := by
  obtain ⟨ds, hds, -⟩ := h.located
  exact ⟨ds.map fun d => d.problem, by simp [problems, hds]⟩

theorem Reads.diagnostics_eq_iff (h : Reads P r s) :
    s.diagnostics = r.diagnostics ↔ s.problems = r.problems := by
  obtain ⟨ds, hds, -⟩ := h.located
  simp [problems, hds]

/-- Nothing is reported where nothing is reported on each part of the way. -/
theorem Reads.quiet_iff (h : Reads P r s) (h' : Reads P s t) :
    t.problems = r.problems ↔ s.problems = r.problems ∧ t.problems = s.problems := by
  obtain ⟨added, hs⟩ := h.exists_problems
  obtain ⟨added', ht⟩ := h'.exists_problems
  rw [ht, hs]
  simp

end

/-- The expression that pixels spell on their own, and the reader that has read it. -/
def evalAlone (scope : Scope) (pixels : List Pixel) : Expression × Reader :=
  (ofPixels none pixels).eval scope

/-- A slice is read as its pixels are on their own. -/
theorem same_evalAlone (scope : Scope) {s : Reader} (h : s.problems = []) :
    SameResult (s.eval scope) (evalAlone scope s.remaining) := by
  have halike : Alike s (ofPixels none s.remaining) := ⟨rfl, h⟩
  exact halike.eval scope

theorem problems_finish (r : Reader) :
    r.finish.problems = r.problems ++ r.remaining.head?.toList.map .leftOver := by
  rw [finish, peek_eq_head?]
  cases r.remaining.head? <;> simp

theorem finish_quiet_iff (r : Reader) : r.finish.problems = r.problems ↔ r.remaining = [] := by
  rw [problems_finish]
  simp

/-! ## Arguments -/

/-- An expression is read in the shape that was analysed, however its slices are read. -/
theorem shape_readShape (scope : Scope) (nested : SliceReader) (r : Reader) :
    (r.readShape scope nested (r.analyze scope)).1.shape = r.analyze scope := by
  cases hps : r.remaining with
  | nil =>
    rw [analyze, hps]
    rfl
  | cons p rest =>
    obtain ⟨t, ht, -⟩ := r.nextSequence_cons hps
    rw [analyze, hps]
    cases hshape : shapeOf scope (p :: rest) with
    | string | number | compound | empty => rfl
    | boolean =>
      obtain ⟨value, hvalue⟩ := Option.isSome_iff_exists.1 (isBoolean_of_shapeOf hshape)
      rw [readShape, readBoolean, r.next_cons hps]
      simp only [hvalue]
      rfl
    | call =>
      rw [readShape, readCall, ht]
      dsimp only
      split
      · rw [readCallOf]
        dsimp only
        split
        · rfl
        · split <;> rfl
      · rfl
    | construct =>
      rw [readShape, readConstruct, r.next_cons hps]
      dsimp only
      split <;> rfl

theorem shape_eval (scope : Scope) (r : Reader) : (r.eval scope).1.shape = r.analyze scope :=
  shape_readShape scope _ r

/-- Pixels spell an expression, whatever they are. -/
theorem isEmpty_eval (scope : Scope) (r : Reader) :
    (r.eval scope).1.isEmpty = r.remaining.isEmpty := by
  rw [Expression.isEmpty, shape_eval, analyze]
  cases r.remaining with
  | nil => rfl
  | cons p rest => exact beq_false_of_ne shapeOf_ne_empty

/-- The pixels in front are read as on their own. -/
theorem readSlice_eval (scope : Scope) (r : Reader) (count : Nat) :
    ∃ s, (r.advance count).readSlice (eval scope) r.index (r.index + count) =
        ((evalAlone scope (r.remaining.take count)).1, s) ∧
      s.remaining = r.remaining.drop count ∧
      s.problems = r.problems ++ (evalAlone scope (r.remaining.take count)).2.problems := by
  have hslice : (r.slice r.index (r.index + count)).remaining = r.remaining.take count := by
    simpa using r.remaining_slice 0 count
  have halone := same_evalAlone scope (r.problems_slice r.index (r.index + count))
  rw [hslice] at halone
  refine ⟨(r.advance count).absorb ((r.slice r.index (r.index + count)).eval scope).2,
    congrArg (fun e => (e, _)) halone.value, r.remaining_advance count, ?_⟩
  rw [problems_absorb, problems_advance, halone.reader.problems]

/-- The arguments that are read are the spans in front, each read on its own. -/
theorem readArguments_eval (scope : Scope) (fuel : Nat) {r : Reader}
    (hfuel : r.remaining.length ≤ fuel) :
    ∃ t, r.readArguments (eval scope) fuel =
        ((argumentSpans r.remaining).1.map fun span => (evalAlone scope span).1, t) ∧
      t.remaining = (argumentSpans r.remaining).2 ∧
      t.problems = r.problems ++
        (argumentSpans r.remaining).1.flatMap fun span => (evalAlone scope span).2.problems := by
  induction fuel generalizing r with
  | zero =>
    have hnil : r.remaining = [] := List.length_eq_zero_iff.1 (Nat.le_zero.1 hfuel)
    rw [hnil, argumentSpans_stop rfl]
    exact ⟨r, rfl, hnil, by simp⟩
  | succ fuel ih =>
    by_cases hcount : argumentLength r.remaining = 0
    · rw [argumentSpans_stop hcount, readArguments]
      simp only [hcount]
      exact ⟨r, rfl, rfl, by simp⟩
    · have hle := argumentLength_le r.remaining
      obtain ⟨s, hread, hleft, hreported⟩ := readSlice_eval scope r (argumentLength r.remaining)
      obtain ⟨p, rest, hspan⟩ : ∃ p rest, r.remaining.take (argumentLength r.remaining) =
          p :: rest := by
        refine List.exists_cons_of_ne_nil fun hnil => hcount ?_
        have hlength := congrArg List.length hnil
        rwa [List.length_take, Nat.min_eq_left hle] at hlength
      have hsome : (evalAlone scope (r.remaining.take (argumentLength r.remaining))).1.isEmpty =
          false := by
        rw [evalAlone, isEmpty_eval, hspan]
        rfl
      obtain ⟨t, ht, hremaining, hproblems⟩ := ih (r := s) (by
        rw [hleft, List.length_drop]
        omega)
      rw [hleft] at ht hremaining hproblems
      rw [argumentSpans_step hcount, readArguments]
      simp only [hcount, hread, hsome, ht]
      refine ⟨t, rfl, hremaining, ?_⟩
      rw [hproblems, hreported, List.flatMap_cons, List.append_assoc]

/-- The arguments that are read for a member are counted. -/
theorem readApplied_eval (scope : Scope) (r : Reader) (m : Member) (name : String) (start : Nat) :
    ∃ t, r.readApplied (eval scope) m name start =
        ((argumentSpans r.remaining).1.map fun span => (evalAlone scope span).1, t) ∧
      t.remaining = (argumentSpans r.remaining).2 ∧
      t.problems = r.problems ++
        ((argumentSpans r.remaining).1.flatMap fun span => (evalAlone scope span).2.problems) ++
        if m.accepts (argumentSpans r.remaining).1.length then []
        else [.wrongArity m name (argumentSpans r.remaining).1.length] := by
  obtain ⟨t, ht, hremaining, hproblems⟩ :=
    readArguments_eval scope _ (Nat.le_refl r.remaining.length)
  rw [readApplied, ht, ← hproblems, ← hremaining]
  refine ⟨_, rfl, ?_, ?_⟩
  all_goals
    rw [checkArity, List.length_map]
    split <;> simp

end Reader

/-! ## The grammar -/

/-- The pixel is a name, of the program or of a library, and stands for the member. -/
def Scope.Binds (scope : Scope) (p : Pixel) (m : Member) : Prop :=
  (p.isSymbol ∨ p.isLibrary) ∧ scope.get? p.hex = some m

/-- The pixel can start a name. -/
def Scope.Resolves (scope : Scope) (p : Pixel) : Prop := p.isBoolean ∨ ∃ m, scope.Binds p m

/-- The name calls the member: a function that its last pixel stands for, or a struct that its only
pixel stands for. -/
def DottedName.Calls (n : DottedName) (scope : Scope) (m : Member) : Prop :=
  scope.Binds n.last m ∧ (m.isFunction ∨ n.links = [] ∧ m.isStruct)

/-- The pixel starts a dotted name, where an argument is expected. -/
def Pixel.StartsName (p : Pixel) : Prop :=
  p.isCharacter = false ∧ p.isBoolean = false ∧ p.isOperator = false ∧ p.isDot = false ∧
    p.isKeyword = false

/-- The pixels are these atoms, one after the other: runs of characters and dotted names, each as
long as it goes, and single booleans. -/
inductive Atoms : List Pixel → List (List Pixel) → Prop
  | nil : Atoms [] []
  | characters {run rest : List Pixel} {atoms : List (List Pixel)} :
      run ≠ [] → (∀ p ∈ run, p.isCharacter) → (∀ p ∈ rest.head?, p.isCharacter = false) →
      Atoms rest atoms → Atoms (run ++ rest) (run :: atoms)
  | boolean {p : Pixel} {rest : List Pixel} {atoms : List (List Pixel)} :
      p.isBoolean → Atoms rest atoms → Atoms ([p] ++ rest) ([p] :: atoms)
  | name {n : DottedName} {rest : List Pixel} {atoms : List (List Pixel)} :
      n.first.StartsName → joins rest = false → Atoms rest atoms →
      Atoms (n.pixels ++ rest) (n.pixels :: atoms)

/-- What may stand after the name of a call. A member that is called takes all pixels as arguments,
each right on its own and in a number that an overload accepts; any other name ends the call. -/
inductive CallForm (scope : Scope) (n : DottedName) (rest : List Pixel) :
    Option (List (List Pixel)) → Prop
  | applied {m : Member} {atoms : List (List Pixel)} :
      n.Calls scope m → Atoms rest atoms →
      (∀ atom ∈ atoms, (Reader.evalAlone scope atom).2.diagnostics = []) →
      (∃ o ∈ m.overloads, o.accepts atoms.length) → CallForm scope n rest (some atoms)
  | plain : (∀ m, ¬ n.Calls scope m) → rest = [] → CallForm scope n rest none

theorem Scope.binds_iff {scope : Scope} {p : Pixel} {m : Member} :
    scope.Binds p m ↔ scope.member? p = some m := by
  simp [Scope.Binds, Scope.member?]

theorem Scope.resolves_iff {scope : Scope} {p : Pixel} :
    scope.Resolves p ↔ (scope.nameOf? p).isSome := by
  rw [Scope.Resolves, Scope.nameOf?, Pixel.isBoolean]
  cases p.boolean? with
  | some value => simp
  | none => simp [Scope.binds_iff, Option.isSome_iff_exists]

theorem DottedName.calls_iff {n : DottedName} {scope : Scope} {m : Member} :
    n.Calls scope m ↔ scope.callable? n.sequence = some m := by
  rw [DottedName.Calls, Scope.binds_iff, Scope.callable?, Option.filter_eq_some_iff,
    n.last_sequence]
  simp [Sequence.isNested, DottedName.sequence, and_comm]

/-! ## Atoms and spans -/

theorem argumentSpans_append {span rest : List Pixel} (hne : span ≠ [])
    (h : argumentLength (span ++ rest) = span.length) :
    argumentSpans (span ++ rest) = (span :: (argumentSpans rest).1, (argumentSpans rest).2) := by
  have hpos : argumentLength (span ++ rest) ≠ 0 := by
    rw [h]
    exact fun hnil => hne (List.length_eq_zero_iff.1 hnil)
  rw [argumentSpans_step hpos, h, List.take_left, List.drop_left]

theorem argumentLength_characters {run rest : List Pixel} (hne : run ≠ [])
    (hrun : ∀ p ∈ run, p.isCharacter) (hrest : ∀ p ∈ rest.head?, p.isCharacter = false) :
    argumentLength (run ++ rest) = run.length := by
  obtain ⟨p, run, rfl⟩ := List.exists_cons_of_ne_nil hne
  have htake : (run ++ rest).takeWhile Pixel.isCharacter = run := by
    rw [List.takeWhile_append_of_pos fun q hq => hrun q (.tail _ hq)]
    cases rest with
    | nil => simp
    | cons q rest => simp [hrest q rfl]
  rw [List.cons_append, argumentLength, if_pos (hrun p (.head _)), htake, Nat.add_comm]
  rfl

theorem argumentLength_boolean {p : Pixel} (hp : p.isBoolean) (rest : List Pixel) :
    argumentLength (p :: rest) = 1 := by
  cases hkind : p.kind <;>
    simp_all [argumentLength, Pixel.isCharacter, Pixel.character?, Pixel.isBoolean, Pixel.boolean?]

theorem argumentLength_dotted {n : DottedName} {rest : List Pixel} (hfirst : n.first.StartsName)
    (hends : joins rest = false) :
    argumentLength (n.pixels ++ rest) = n.pixels.length + if isLoneDot rest then 1 else 0 := by
  obtain ⟨hcharacter, hboolean, hoperator, hdot, hkeyword⟩ := hfirst
  have htail := dottedTail_linkPixels n.isDot hends
  rw [DottedName.pixels, List.cons_append, argumentLength, htail]
  simp only [hcharacter, hboolean, hoperator, hdot, hkeyword, DottedTail.length,
    List.length_map, List.length_cons, length_linkPixels]
  simp only [Bool.false_eq_true, if_false, Bool.or_self]
  omega

/-- Atoms are the arguments in front, and nothing is left. -/
theorem Atoms.argumentSpans {pixels : List Pixel} {atoms : List (List Pixel)}
    (h : Atoms pixels atoms) : argumentSpans pixels = (atoms, []) := by
  induction h with
  | nil => exact argumentSpans_stop rfl
  | characters hne hrun hrest _ ih =>
    rw [argumentSpans_append hne (argumentLength_characters hne hrun hrest), ih]
  | boolean hp _ ih =>
    rw [argumentSpans_append (List.cons_ne_nil _ _) (argumentLength_boolean hp _), ih]
  | @name n rest atoms hfirst hends _ ih =>
    -- no argument starts with a dot
    have hlone : isLoneDot rest = false := by
      rw [← Bool.not_eq_true]
      intro hdot
      obtain ⟨dot, rfl, hdot⟩ := exists_of_isLoneDot hdot
      rw [argumentSpans_stop (argumentLength_dot hdot [])] at ih
      exact absurd (congrArg Prod.snd ih) (List.cons_ne_nil _ _)
    have hlength := argumentLength_dotted hfirst hends
    rw [hlone] at hlength
    rw [argumentSpans_append n.pixels_ne_nil hlength, ih]

/-! ## A name that ends with a dot -/

/-- Before the first operator, a name that ends with a dot is one that ends with a dot. -/
theorem exists_segment_of_dot {links : List (Pixel × Pixel)} {dot : Pixel}
    (hdots : ∀ link ∈ links, link.1.isDot) (hdot : dot.isDot) :
    ∃ links' dot', (∀ link ∈ links', link.1.isDot) ∧ dot'.isDot ∧
      (splitOperators (linkPixels links ++ [dot])).1 = linkPixels links' ++ [dot'] := by
  induction links with
  | nil => exact ⟨[], dot, by simp, hdot, by simp [linkPixels, splitOperators, operator?_dot hdot]⟩
  | cons link links ih =>
    have hlink : link.1.isDot := hdots link (.head _)
    obtain ⟨links', dot', hdots', hdot', hsegment⟩ := ih fun link hmem => hdots link (.tail _ hmem)
    cases hop : link.2.operator? with
    | some op =>
      refine ⟨[], link.1, by simp, hlink, ?_⟩
      simp [linkPixels, splitOperators, operator?_dot hlink, hop]
    | none =>
      refine ⟨link :: links', dot', List.forall_mem_cons.2 ⟨hlink, hdots'⟩, hdot', ?_⟩
      simp only [linkPixels, List.flatMap_cons, List.cons_append, List.nil_append, splitOperators,
        operator?_dot hlink, hop] at hsegment ⊢
      rw [hsegment]

namespace Reader

theorem sound_eval (scope : Scope) : Sound (eval scope) := reads_evalSlice scope (sliceDepth + 1)

/-- Reading is quiet where the shape is read without a report and nothing is left over. -/
theorem readWith_quiet_iff (scope : Scope) (shape : Shape) (r : Reader) :
    (r.readWith scope (eval scope) shape).2.problems = r.problems ↔
      (r.readShape scope (eval scope) shape).2.problems = r.problems ∧
        (r.readShape scope (eval scope) shape).2.remaining = [] := by
  rw [← finish_quiet_iff]
  exact (reads_readShape scope (sound_eval scope) shape r).quiet_iff (reads_finish _)

theorem eval_quiet_iff (scope : Scope) (r : Reader) :
    (r.eval scope).2.problems = r.problems ↔
      (r.readShape scope (eval scope) (shapeOf scope r.remaining)).2.problems = r.problems ∧
        (r.readShape scope (eval scope) (shapeOf scope r.remaining)).2.remaining = [] := by
  have hsame : (r.eval scope).2.problems = _ :=
    (Alike.evalAs ⟨rfl, rfl⟩ scope (r.analyze scope)).reader.problems
  rw [hsame]
  exact readWith_quiet_iff scope _ r

section
variable (scope : Scope) {r t : Reader} {s : Sequence}

theorem reads_of_nextSequence (h : r.nextSequence = (some s, t)) :
    Reads Problem.OfExpression r t ∧ r.index < t.length := by
  have hread : Reads Problem.OfExpression r r.nextSequence.2 := reads_nextSequence trivial r
  rw [h] at hread
  refine ⟨hread, ?_⟩
  rw [hread.length_eq]
  exact index_lt_of_nextSequence (congrArg Prod.fst h)

/-- What the name of a call reports stays reported. -/
theorem reads_readCall_of_name (h : r.nextSequence = (some s, t)) :
    Reads Problem.OfExpression t (r.readCall scope (eval scope)).2 := by
  have hlt := (reads_of_nextSequence h).2
  have hcheck := reads_checkResolves scope s.first hlt
  rw [readCall, h]
  rcases hc : t.checkResolves scope s.first r.index with ⟨_ | _, u⟩
  all_goals
    rw [hc] at hcheck
    simp only [hc]
  · exact hcheck.trans (reads_skipToEnd u)
  · have hstart : r.index < u.length := by rwa [hcheck.length_eq]
    exact hcheck.trans (reads_readCallOf scope (sound_eval scope) s hstart)

/-- What a name at the start of a string reports stays reported. -/
theorem reads_readString_of_name (h : r.nextSequence = (some s, t)) {p : Pixel}
    {rest : List Pixel} (hr : r.remaining = p :: rest) (hp : p.isCharacter = false) :
    Reads Problem.OfExpression t (r.readString scope).2 := by
  have hcheck := reads_checkResolves scope s.first (reads_of_nextSequence h).2
  have hcharacter : p.character? = none := by simpa [Pixel.isCharacter] using hp
  show Reads Problem.OfExpression t (r.stringParts scope r.remaining.length [] []).2
  rw [hr, List.length_cons, stringParts, peek_eq_head?, hr]
  simp only [List.head?_cons, hcharacter, h]
  rcases hc : t.checkResolves scope s.first r.index with ⟨_ | _, u⟩
  all_goals
    rw [hc] at hcheck
    exact hcheck.trans (reads_stringParts scope _ _ _ u)

end

/-- A reader that goes on from a report does not take it back. -/
theorem Reads.not_quiet {P : Problem → Prop} {r s t : Reader} {problem : Problem}
    (h : Reads P s t) (hs : s.problems = r.problems ++ [problem]) : t.problems ≠ r.problems := by
  obtain ⟨added, hadded⟩ := h.exists_problems
  rw [hadded, hs]
  simp

/-- A struct leaves the dots after its name: no argument starts with one. -/
theorem remaining_readConstruct (scope : Scope) {n : DottedName} {dot : Pixel} {r : Reader}
    {m : Member} (hr : r.remaining = n.first :: (linkPixels n.links ++ [dot])) (hdot : dot.isDot)
    (hm : scope.member? n.first = some m) (hstruct : m.isStruct) :
    (r.readConstruct scope (eval scope)).2.remaining = linkPixels n.links ++ [dot] := by
  have hadvance : (r.advance 1).remaining = linkPixels n.links ++ [dot] := by
    rw [remaining_advance, hr]
    rfl
  have hstop : argumentLength (linkPixels n.links ++ [dot]) = 0 := by
    refine argumentLength_of_dottedTail ?_
    rw [dottedTail_linkPixels n.isDot rfl]
    simp [DottedTail.length, isLoneDot, hdot, length_linkPixels]
  obtain ⟨t, ht, hremaining, -⟩ :=
    (r.advance 1).readApplied_eval scope m (scope.firstCode n.first) r.index
  rw [hadvance, argumentSpans_stop hstop] at hremaining
  rw [readConstruct, r.next_cons hr]
  simp only [hm, Option.filter_some, hstruct, if_true, ht, hremaining]

/-- Without operators, a name that ends with a dot is reported. -/
theorem dot_reported_of_not_isOperator (scope : Scope) {n : DottedName} {dot : Pixel} {r : Reader}
    (hfirst : n.first.StartsName) (hdot : dot.isDot)
    (hop : (n.pixels ++ [dot]).any Pixel.isOperator = false)
    (hr : r.remaining = n.pixels ++ [dot]) : (r.eval scope).2.problems ≠ r.problems := by
  intro hquiet
  obtain ⟨hquiet, hleft⟩ := (eval_quiet_iff scope r).1 hquiet
  have hleads : n.Leads r.remaining [dot] := ⟨hr, rfl⟩
  obtain ⟨t, ht, -, hproblems⟩ := hleads.nextSequence
  have hmissing : t.problems = r.problems ++ [.missingMember] := by
    simpa [isLoneDot, hdot] using hproblems
  have hcons : r.remaining = n.first :: (linkPixels n.links ++ [dot]) := hr
  cases hshape : shapeOf scope r.remaining with
  | string =>
    rw [hshape] at hquiet
    exact (reads_readString_of_name scope ht hcons hfirst.1).not_quiet hmissing hquiet
  | call =>
    rw [hshape] at hquiet
    exact (reads_readCall_of_name scope ht).not_quiet hmissing hquiet
  | construct =>
    rw [hshape] at hleft
    rw [hcons] at hshape
    obtain ⟨m, hm, hstruct⟩ := exists_struct_of_shapeOf hshape
    rw [readShape, remaining_readConstruct scope hcons hdot hm hstruct] at hleft
    simp at hleft
  | number =>
    rw [hcons] at hshape
    exact absurd (isCharacter_of_shapeOf hshape) (by simp [hfirst.1])
  | boolean =>
    rw [hcons] at hshape
    exact absurd (isBoolean_of_shapeOf hshape) (by simp [hfirst.2.1])
  | compound =>
    rw [hr, shapeOf_eq_compound_iff, hop] at hshape
    contradiction
  | empty =>
    rw [hcons] at hshape
    exact absurd hshape shapeOf_ne_empty

theorem problems_readSlice (nested : SliceReader) (r : Reader) (start stop : Nat) :
    (r.readSlice nested start stop).2.problems =
      r.problems ++ (nested (r.slice start stop)).2.problems :=
  r.problems_absorb _

/-- What the first operand reports stays reported. -/
theorem exists_problems_readOperands (nested : SliceReader) (more : List (Operator × List Pixel))
    (before : Option Operator) (start length : Nat) (r : Reader) :
    ∃ added, (r.readOperands nested more before start length).2.problems =
      (r.readSlice nested start (start + length)).2.problems ++ added := by
  induction more generalizing before start length r with
  | nil =>
    rw [readOperands]
    cases before with
    | none => exact ⟨[], by simp⟩
    | some op =>
      dsimp only
      split
      · exact ⟨[.missingOperand op], by simp⟩
      · exact ⟨[], by simp⟩
  | cons head more ih =>
    obtain ⟨added, hadded⟩ := ih (some head.1) (start + length + 1) head.2.length
      (r.readSlice nested start (start + length)).2
    rw [problems_readSlice, List.append_assoc] at hadded
    exact ⟨_, hadded⟩

/-- Nothing is reported on a compound expression only where nothing is on its first operand. -/
theorem problems_first_operand (scope : Scope) {r : Reader}
    (h : (r.readCompound (eval scope)).2.problems = r.problems) :
    ((r.slice r.index (r.index + (splitOperators r.remaining).1.length)).eval scope).2.problems =
      [] := by
  obtain ⟨added, hadded⟩ := exists_problems_readOperands (eval scope)
    (splitOperators r.remaining).2 none r.index (splitOperators r.remaining).1.length r
  rw [readCompound] at h
  dsimp only at h
  rw [problems_skipToEnd, hadded, problems_readSlice, List.append_assoc] at h
  exact (List.append_eq_nil_iff.1 (List.append_right_eq_self.1 h)).1

/-- A name that ends with a dot is reported. With operators in it, the first operand is such a
name. -/
theorem dot_reported (scope : Scope) {n : DottedName} {dot : Pixel} {r : Reader}
    (hfirst : n.first.StartsName) (hdot : dot.isDot) (hr : r.remaining = n.pixels ++ [dot]) :
    (r.eval scope).2.problems ≠ r.problems := by
  cases hop : (n.pixels ++ [dot]).any Pixel.isOperator with
  | false => exact dot_reported_of_not_isOperator scope hfirst hdot hop hr
  | true =>
    intro hquiet
    rw [eval_quiet_iff scope r, hr, shapeOf_eq_compound_iff.2 hop] at hquiet
    have hoperand := problems_first_operand scope hquiet.1
    obtain ⟨links, dot', hdots, hdot', hsegment⟩ := exists_segment_of_dot n.isDot hdot
    have hoperator : n.first.operator? = none := by
      simpa [Pixel.isOperator] using hfirst.2.2.1
    have hsplit : (splitOperators r.remaining).1 = n.first :: (linkPixels links ++ [dot']) := by
      rw [hr, DottedName.pixels, List.cons_append, splitOperators]
      simp only [hoperator, hsegment]
    have hplain : (splitOperators r.remaining).1.any Pixel.isOperator = false := by
      refine List.any_eq_false.2 fun p hp => ?_
      rw [Bool.not_eq_true]
      exact isOperator_of_mem_segment (List.mem_cons_self : _ ∈ slicesOf .compound r.remaining) hp
    have hslice := r.remaining_slice 0 (splitOperators r.remaining).1.length
    rw [Nat.add_zero, List.drop_zero, take_splitOperators, hsplit] at hslice
    rw [hsplit] at hoperand hplain
    exact dot_reported_of_not_isOperator (n := ⟨n.first, links, hdots⟩) scope hfirst hdot' hplain
      hslice hoperand

end Reader

/-! ## Spans as atoms -/

theorem exists_run {p : Pixel} (hp : p.isCharacter) (pixels : List Pixel) :
    ∃ run rest, p :: pixels = run ++ rest ∧ run ≠ [] ∧ (∀ q ∈ run, q.isCharacter) ∧
      ∀ q ∈ rest.head?, q.isCharacter = false := by
  refine ⟨_, _, List.takeWhile_append_dropWhile.symm, ?_, fun q hq => List.mem_takeWhile_imp hq, ?_⟩
  · simp [hp]
  · intro q hq
    have hnot := List.head?_dropWhile_not Pixel.isCharacter (p :: pixels)
    rw [hq] at hnot
    simpa using hnot

/-- The argument in front is an atom, or a name that ends with a dot. -/
theorem exists_argument {pixels : List Pixel} (h : argumentLength pixels ≠ 0) :
    ∃ span rest, pixels = span ++ rest ∧ argumentLength pixels = span.length ∧
      ((∀ atoms, Atoms rest atoms → Atoms pixels (span :: atoms)) ∨
        ∃ (n : DottedName) (dot : Pixel), span = n.pixels ++ [dot] ∧ n.first.StartsName ∧
          dot.isDot) := by
  cases pixels with
  | nil => exact absurd rfl h
  | cons p rest =>
    cases hcharacter : p.isCharacter with
    | true =>
      obtain ⟨run, rest', hsplit, hne, hrun, hend⟩ := exists_run hcharacter rest
      rw [hsplit]
      exact ⟨run, rest', rfl, argumentLength_characters hne hrun hend,
        .inl fun atoms => .characters hne hrun hend⟩
    | false =>
      cases hboolean : p.isBoolean with
      | true =>
        exact ⟨[p], rest, rfl, argumentLength_boolean hboolean rest,
          .inl fun atoms hatoms => .boolean hboolean hatoms⟩
      | false =>
        obtain ⟨n, rest', rfl, hleads⟩ := DottedName.exists_leads p rest
        have hfirst : n.first.StartsName := by
          simp only [argumentLength, hcharacter, hboolean] at h
          simp only [Pixel.StartsName, hcharacter, hboolean]
          grind
        have hlength := argumentLength_dotted hfirst hleads.ends
        cases hlone : isLoneDot rest' with
        | false =>
          rw [hleads.split]
          rw [hlone] at hlength
          exact ⟨n.pixels, rest', rfl, hlength, .inl fun atoms => .name hfirst hleads.ends⟩
        | true =>
          obtain ⟨dot, rfl, hdot⟩ := exists_of_isLoneDot hlone
          rw [hleads.split]
          rw [hlone] at hlength
          exact ⟨n.pixels ++ [dot], [], by simp, by simpa using hlength,
            .inr ⟨n, dot, rfl, hfirst, hdot⟩⟩

/-- Where the arguments take all pixels and nothing is reported on them, they are atoms. -/
theorem atoms_of_argumentSpans (scope : Scope) {pixels : List Pixel} {spans : List (List Pixel)}
    (h : argumentSpans pixels = (spans, []))
    (hquiet : ∀ span ∈ spans, (Reader.evalAlone scope span).2.problems = []) :
    Atoms pixels spans := by
  induction pixels using argumentSpans.induct generalizing spans with
  | case1 pixels hstop =>
    rw [argumentSpans_stop hstop] at h
    obtain ⟨rfl, rfl⟩ := Prod.mk.inj h
    exact .nil
  | case2 pixels hstep _ _ _ ih =>
    obtain ⟨span, rest, hsplit, hlength, hargument⟩ := exists_argument hstep
    have htake : pixels.take (argumentLength pixels) = span := by
      rw [hlength, hsplit, List.take_left]
    have hdrop : pixels.drop (argumentLength pixels) = rest := by
      rw [hlength, hsplit, List.drop_left]
    rw [argumentSpans_step hstep, htake, hdrop] at h
    obtain ⟨rfl, hrest⟩ := Prod.mk.inj h
    rw [hdrop] at ih
    rcases hargument with hatom | ⟨n, dot, rfl, hfirst, hdot⟩
    · exact hatom _ (ih (Prod.ext rfl hrest) fun span hspan => hquiet span (.tail _ hspan))
    · exact absurd (hquiet _ (.head _)) (Reader.dot_reported scope hfirst hdot rfl)

/-! ## Calls -/

theorem Reader.problems_eq_nil_iff {r : Reader} : r.problems = [] ↔ r.diagnostics = [] :=
  List.map_eq_nil_iff

/-- The arguments of a call: the atoms, each read on its own. -/
def callArguments (scope : Scope) (form : Option (List (List Pixel))) : Option (List Expression) :=
  form.map fun atoms => atoms.map fun atom => (Reader.evalAlone scope atom).1

section
variable {scope : Scope} {n : DottedName} {r : Reader}

/-- What the grammar admits after a name is read to the end, and nothing is reported. -/
theorem CallForm.readCallOf {form : Option (List (List Pixel))}
    (h : CallForm scope n r.remaining form) (start : Nat) :
    ∃ t, r.readCallOf scope (Reader.eval scope) n.sequence start =
        (.call (scope.sequenceCode n.sequence) (callArguments scope form), t) ∧
      t.problems = r.problems ∧ t.remaining = [] := by
  rw [Reader.readCallOf]
  cases h with
  | @applied m atoms hm hatoms hquiet harity =>
    have hproblems : (atoms.flatMap fun atom => (Reader.evalAlone scope atom).2.problems) = [] :=
      List.flatMap_eq_nil_iff.2 fun atom hatom => Reader.problems_eq_nil_iff.2 (hquiet atom hatom)
    have haccepts : m.accepts atoms.length := List.any_eq_true.2 harity
    obtain ⟨t, ht, hleft, hreported⟩ :=
      r.readApplied_eval scope m (scope.sequenceCode n.sequence) start
    rw [hatoms.argumentSpans] at ht hleft hreported
    rw [hproblems, haccepts] at hreported
    simp only [DottedName.calls_iff.1 hm, ht]
    exact ⟨t, rfl, by simpa using hreported, hleft⟩
  | plain hnone hend =>
    have hcallable : scope.callable? n.sequence = none :=
      Option.eq_none_iff_forall_ne_some.2 fun m hm => hnone m (DottedName.calls_iff.2 hm)
    have hnext : r.hasNext = false := by simp [Reader.hasNext_eq, hend]
    simp only [hcallable, hnext]
    exact ⟨r, rfl, rfl, hend⟩

/-- What is read to the end after a name without a report, the grammar admits. -/
theorem exists_callForm {start : Nat}
    (hquiet : (r.readCallOf scope (Reader.eval scope) n.sequence start).2.problems = r.problems)
    (hend : (r.readCallOf scope (Reader.eval scope) n.sequence start).2.remaining = []) :
    ∃ form, CallForm scope n r.remaining form := by
  rw [Reader.readCallOf] at hquiet hend
  cases hcallable : scope.callable? n.sequence with
  | some m =>
    obtain ⟨t, ht, hleft, hreported⟩ :=
      r.readApplied_eval scope m (scope.sequenceCode n.sequence) start
    simp only [hcallable, ht] at hquiet hend
    rw [hquiet, List.append_assoc, List.self_eq_append_right, List.append_eq_nil_iff,
      List.flatMap_eq_nil_iff] at hreported
    have hspans : argumentSpans r.remaining = ((argumentSpans r.remaining).1, []) :=
      Prod.ext rfl (hleft.symm.trans hend)
    have haccepts : m.accepts (argumentSpans r.remaining).1.length := by
      by_contra hnot
      simp [hnot] at hreported
    exact ⟨some _, .applied (DottedName.calls_iff.2 hcallable)
      (atoms_of_argumentSpans scope hspans hreported.1)
      (fun span hspan => Reader.problems_eq_nil_iff.1 (hreported.1 span hspan))
      (List.any_eq_true.1 haccepts)⟩
  | none =>
    simp only [hcallable] at hquiet
    have hnext : r.hasNext = false := by
      rw [← Bool.not_eq_true]
      intro hnext
      simp [hnext] at hquiet
    refine ⟨none, .plain (fun m hm => ?_) (by simpa [Reader.hasNext_eq] using hnext)⟩
    rw [DottedName.calls_iff, hcallable] at hm
    contradiction

theorem readCall_of_resolves {t : Reader} (ht : r.nextSequence = (some n.sequence, t))
    (h : scope.Resolves n.first) (nested : SliceReader) :
    r.readCall scope nested = t.readCallOf scope nested n.sequence r.index := by
  obtain ⟨name, hname⟩ := Option.isSome_iff_exists.1 (Scope.resolves_iff.1 h)
  have hcheck : t.checkResolves scope n.sequence.first r.index = (true, t) := by
    show t.checkResolves scope n.first r.index = (true, t)
    rw [Reader.checkResolves, hname]
  rw [Reader.readCall, ht]
  simp only [hcheck]

theorem resolves_of_quiet {t : Reader} {nested : SliceReader}
    (ht : r.nextSequence = (some n.sequence, t))
    (hquiet : (r.readCall scope nested).2.problems = t.problems) : scope.Resolves n.first := by
  rw [Scope.resolves_iff, Option.isSome_iff_ne_none]
  intro hname
  have hcheck : t.checkResolves scope n.sequence.first r.index =
      (false, t.report (.unresolved n.first) (.index r.index)) := by
    show t.checkResolves scope n.first r.index = _
    rw [Reader.checkResolves, hname]
  rw [Reader.readCall, ht] at hquiet
  simp [hcheck] at hquiet

/-- The name of a call is read first, and the rest of the call is read from there. -/
theorem readCall_quiet_iff {rest : List Pixel} (hleads : n.Leads r.remaining rest) :
    (r.readCall scope (Reader.eval scope)).2.problems = r.problems ∧
        (r.readCall scope (Reader.eval scope)).2.remaining = [] ↔
      isLoneDot rest = false ∧ scope.Resolves n.first ∧ ∃ form, CallForm scope n rest form := by
  obtain ⟨t, ht, hleft, hreported⟩ := hleads.nextSequence
  constructor
  · rintro ⟨hquiet, hend⟩
    obtain ⟨hname, hcall⟩ := ((Reader.reads_of_nextSequence ht).1.quiet_iff
      (Reader.reads_readCall_of_name scope ht)).1 hquiet
    have hlone : isLoneDot rest = false := by
      rw [← Bool.not_eq_true]
      intro hlone
      rw [hname] at hreported
      simp [hlone] at hreported
    have hresolves := resolves_of_quiet ht hcall
    rw [hlone] at hleft
    rw [readCall_of_resolves ht hresolves] at hcall hend
    have hform := exists_callForm hcall hend
    rw [hleft] at hform
    exact ⟨hlone, hresolves, hform⟩
  · rintro ⟨hlone, hresolves, form, hform⟩
    rw [hlone] at hleft hreported
    have hrest : t.remaining = rest := hleft
    rw [← hrest] at hform
    obtain ⟨u, hu, hquiet, hend⟩ := hform.readCallOf r.index
    rw [readCall_of_resolves ht hresolves, hu]
    exact ⟨by simpa [hreported] using hquiet, hend⟩

end

/-- **Calls are accepted by their grammar.** Reading a call reports nothing exactly where no lone
dot follows the name in front, the name resolves and the grammar admits what comes after it. The
arguments are then the atoms, each read on its own; a name that calls no member has none. -/
theorem call_grammar (scope : Scope) {r : Reader} (h : r.hasNext) :
    (∃ (n : DottedName) (rest : List Pixel), n.Leads r.remaining rest) ∧
    ∀ (n : DottedName) (rest : List Pixel), n.Leads r.remaining rest →
      ((r.evalAs scope .call).2.diagnostics = r.diagnostics ↔
        isLoneDot rest = false ∧ scope.Resolves n.first ∧ ∃ form, CallForm scope n rest form) ∧
      ∀ form, isLoneDot rest = false → scope.Resolves n.first → CallForm scope n rest form →
        (r.evalAs scope .call).1 =
          .call (scope.sequenceCode n.sequence) (callArguments scope form) := by
  have hsame : Reader.SameResult (r.evalAs scope .call)
      (r.readWith scope (Reader.eval scope) .call) := Reader.Alike.evalAs ⟨rfl, rfl⟩ scope .call
  constructor
  · obtain ⟨p, pixels, hcons⟩ : ∃ p pixels, r.remaining = p :: pixels := by
      refine List.exists_cons_of_ne_nil fun hnil => ?_
      simp [Reader.hasNext_eq, hnil] at h
    obtain ⟨n, rest, -, hleads⟩ := DottedName.exists_leads p pixels
    exact ⟨n, rest, hcons ▸ hleads⟩
  · intro n rest hleads
    constructor
    · rw [(Reader.reads_evalAs scope .call r).diagnostics_eq_iff, hsame.reader.problems,
        Reader.readWith_quiet_iff scope .call r]
      exact readCall_quiet_iff hleads
    · intro form hlone hresolves hform
      obtain ⟨t, ht, hleft, -⟩ := hleads.nextSequence
      have hrest : t.remaining = rest := by rw [hleft, hlone]; rfl
      obtain ⟨u, hu, -⟩ := CallForm.readCallOf (hrest ▸ hform) r.index
      rw [hsame.value]
      show (r.readCall scope (Reader.eval scope)).1 = _
      rw [readCall_of_resolves ht hresolves, hu]

/-! A method of an object that is called with a digit, a boolean and a member of the object. -/

def objectPixel : Pixel := ⟨⟨255, 0, 0, 255⟩, 0, 0, .symbol⟩

def methodPixel : Pixel := ⟨⟨0, 255, 0, 255⟩, 2, 0, .library "list.add"⟩

def dotPixel (x : Nat) : Pixel := ⟨⟨0, 0, 1, 255⟩, x, 0, .operator .dot⟩

/-- The object and a pixel that a dot joins to it. -/
def memberName (x : Nat) (member : Pixel) : DottedName :=
  ⟨objectPixel, [(dotPixel x, member)], fun link hlink => by rw [List.mem_singleton.1 hlink]; rfl⟩

def methodScope : Scope :=
  .ofGlobals ⟨[(objectPixel.hex, .var "list"), (methodPixel.hex, .func "add" [.variadic 1] true)]⟩

def methodAtoms : List (List Pixel) :=
  [[⟨.grey 55, 3, 0, .character 55⟩], [⟨⟨0, 0, 2, 255⟩, 4, 0, .boolean true⟩],
    (memberName 6 ⟨⟨0, 0, 255, 255⟩, 7, 0, .symbol⟩).pixels]

def methodReader : Reader :=
  .ofPixels none ((memberName 1 methodPixel).pixels ++ methodAtoms.flatten)

theorem callForm_method :
    CallForm methodScope (memberName 1 methodPixel) methodAtoms.flatten (some methodAtoms) := by
  have hquiet : (methodAtoms.all fun atom =>
      (Reader.evalAlone methodScope atom).2.diagnostics.isEmpty) = true := by decide +kernel
  refine .applied (m := .func "add" [.variadic 1] true) ⟨⟨.inr rfl, by decide +kernel⟩, .inl rfl⟩ ?_
    (fun atom hatom => List.isEmpty_iff.1 (List.all_eq_true.1 hquiet atom hatom))
    ⟨_, .head _, by decide⟩
  refine .characters (List.cons_ne_nil _ _) ?_ ?_ (.boolean rfl (.name ?_ rfl .nil))
  · exact fun p hp => by rw [List.mem_singleton.1 hp]; rfl
  · exact fun p hp => by cases hp; rfl
  · exact ⟨rfl, rfl, rfl, rfl, rfl⟩

theorem call_method :
    methodReader.hasNext ∧ methodScope.Resolves objectPixel ∧
      (methodReader.evalAs methodScope .call).2.diagnostics = methodReader.diagnostics ∧
      (methodReader.evalAs methodScope .call).1 =
        .call "list.add" (some [.number "7", .boolean true, .call "list._0000FF" none]) := by
  have hnext : methodReader.hasNext := by decide
  have hresolves : methodScope.Resolves objectPixel :=
    .inr ⟨.var "list", .inl rfl, by decide +kernel⟩
  obtain ⟨hquiet, hread⟩ := (call_grammar methodScope hnext).2 (memberName 1 methodPixel)
    methodAtoms.flatten ⟨rfl, rfl⟩
  refine ⟨hnext, hresolves, hquiet.2 ⟨rfl, hresolves, _, callForm_method⟩, ?_⟩
  rw [hread _ rfl hresolves callForm_method]
  rfl

end PixelLang
