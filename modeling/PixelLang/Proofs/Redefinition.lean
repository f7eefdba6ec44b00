import PixelLang.Proofs.Calls
import PixelLang.Proofs.Naming

/-!
# Names that are taken

A statement that declares a name looks whether the name is taken. An assignment changes no binding,
and the head of a function whose name is taken leaves no function to wait for its block. A struct
reports that its name is taken and binds it all the same.

* `fresh_generateDeclare`, `keys_struct`: what the two statements that bind names bind.
* `Keyword.Retakes`: a statement is a struct whose name is taken.
* `Language.redefines_iff_retakes`: such structs, and no other statements, bind a name that is
  taken; all other bindings stay what they were.
-/

set_option autoImplicit false

namespace PixelLang

/-- The keys that a statement binds around it, at once or with the block that follows. -/
def Generated.keys (g : Generated) : List String :=
  g.definitions.map (·.1) ++ g.pending.toList.map (·.key)

/-- The statement is a struct of this name, which is taken. -/
structure Keyword.Retakes (k : Keyword) (ctx : Context) (r : Reader) (name : Pixel) : Prop where
  keyword : k = .struct
  pixel : r.pixels[r.index + 1]? = some name
  isSymbol : name.isSymbol
  taken : (ctx.scope.get? name.hex).isSome

theorem Reader.peek_next (r : Reader) : r.next.2.peek = r.pixels[r.index + 1]? := by
  unfold next
  cases hpeek : r.peek with
  | some p =>
    show r.pixels[(r.advance 1).index]? = _
    rw [index_advance (peek_eq_some hpeek)]
  | none =>
    have hend : r.pixels.length ≤ r.index := List.getElem?_eq_none_iff.1 hpeek
    exact hpeek.trans (List.getElem?_eq_none (by omega)).symm

theorem Reader.readName_symbol {r : Reader} {p : Pixel} (hpeek : r.peek = some p)
    (hsymbol : p.isSymbol) (k : Keyword) (token : Nat) :
    r.readName k token = (some p, r.advance 1) := by
  simp [readName, next, hpeek, hsymbol]

/-! ## What statements bind -/

theorem of_mem_definitions_declareVariable {scope : Scope} {existing : Option Member} {name : Pixel}
    {start : Nat} {r : Reader} {entry : String × Member}
    (h : entry ∈ (declareVariable scope existing name start r).1.definitions) :
    existing = none ∧ entry.1 = name.hex := by
  unfold declareVariable at h
  rcases existing with _ | m
  · obtain rfl := List.mem_singleton.1 h
    exact ⟨rfl, rfl⟩
  · cases m <;> exact absurd h List.not_mem_nil

/-- A declaration defines a name that is not taken. -/
theorem fresh_generateDeclare {ctx : Context} {r : Reader} {entry : String × Member}
    (h : entry ∈ (generateDeclare ctx r).1.definitions) : ctx.scope.get? entry.1 = none := by
  unfold generateDeclare at h
  rcases hread : r.readName .declare 1 with ⟨_ | name, r'⟩
  · simp [hread] at h
  · simp only [hread] at h
    split at h
    · exact absurd h List.not_mem_nil
    · obtain ⟨hfresh, hkey⟩ := of_mem_definitions_declareVariable h
      rw [hkey, hfresh]

/-- A struct defines its name, taken or not. -/
theorem definitions_struct (ctx : Context) (r : Reader) :
    ∃ build : Overload, (Keyword.struct.generate ctx r).1.definitions =
      (r.pixels[r.index + 1]?.filter (·.isSymbol)).toList.map fun name =>
        (name.hex, .struct name.identifier build) := by
  rw [← r.peek_next, ← Reader.fst_readName .struct 1 r.next.2]
  simp only [Keyword.generate, Keyword.generator, generateStruct]
  rcases r.next.2.readName .struct 1 with ⟨_ | name, r'⟩
  · exact ⟨⟨[]⟩, rfl⟩
  · exact ⟨_, rfl⟩

theorem keys_of_ne {k : Keyword} (hdeclare : k ≠ .declare) (hstruct : k ≠ .struct) (ctx : Context)
    (r : Reader) : (k.generate ctx r).1.keys = [] := by
  rw [Generated.keys, Keyword.definitions_generate hdeclare hstruct,
    Keyword.pending_generate hdeclare]
  rfl

theorem fresh_keys_declare {ctx : Context} {r : Reader} {key : String}
    (h : key ∈ (Keyword.declare.generate ctx r).1.keys) : ctx.scope.get? key = none := by
  rcases List.mem_append.1 h with h | h
  · obtain ⟨entry, hentry, rfl⟩ := List.mem_map.1 h
    exact fresh_generateDeclare hentry
  · obtain ⟨p, hp, rfl⟩ := List.mem_map.1 h
    obtain ⟨-, name, -, -, hget, rfl⟩ :=
      (pending_generateDeclare_eq_some ctx r.next.2 p).1 (Option.mem_toList.1 hp)
    exact hget

theorem keys_struct (ctx : Context) (r : Reader) :
    (Keyword.struct.generate ctx r).1.keys =
      (r.pixels[r.index + 1]?.filter (·.isSymbol)).toList.map (·.hex) := by
  obtain ⟨build, hdefinitions⟩ := definitions_struct ctx r
  rw [Generated.keys, hdefinitions, Keyword.pending_generate (k := .struct) (by decide),
    List.map_map]
  exact List.append_nil _

/-- A statement binds a key that is taken exactly if it is a struct of that name. -/
theorem Keyword.mem_keys_iff {k : Keyword} {ctx : Context} {r : Reader} {key : String}
    (htaken : (ctx.scope.get? key).isSome) :
    key ∈ (k.generate ctx r).1.keys ↔ ∃ name, k.Retakes ctx r name ∧ name.hex = key := by
  by_cases hstruct : k = .struct
  · subst hstruct
    rw [keys_struct]
    constructor
    · intro h
      obtain ⟨name, hname, rfl⟩ := List.mem_map.1 h
      obtain ⟨hpixel, hsymbol⟩ := Option.filter_eq_some_iff.1 (Option.mem_toList.1 hname)
      exact ⟨name, ⟨rfl, hpixel, hsymbol, htaken⟩, rfl⟩
    · rintro ⟨name, hretakes, rfl⟩
      refine List.mem_map_of_mem (Option.mem_toList.2 ?_)
      exact Option.filter_eq_some_iff.2 ⟨hretakes.pixel, hretakes.isSymbol⟩
  · refine iff_of_false (fun h => ?_) fun ⟨name, hretakes, _⟩ => hstruct hretakes.keyword
    by_cases hdeclare : k = .declare
    · subst hdeclare
      rw [fresh_keys_declare h] at htaken
      exact Bool.false_ne_true htaken
    · rw [keys_of_ne hdeclare hstruct] at h
      exact List.not_mem_nil h

namespace Keyword.Retakes

variable {k : Keyword} {ctx : Context} {r : Reader} {name : Pixel}

theorem definitions (h : k.Retakes ctx r name) :
    ∃ build : Overload, (k.generate ctx r).1.definitions =
      [(name.hex, .struct name.identifier build)] := by
  obtain ⟨rfl, hpixel, hsymbol, -⟩ := h
  obtain ⟨build, hdefinitions⟩ := definitions_struct ctx r
  refine ⟨build, ?_⟩
  rw [hdefinitions, hpixel, Option.filter_some, if_pos hsymbol]
  rfl

theorem keys (h : k.Retakes ctx r name) : (k.generate ctx r).1.keys = [name.hex] := by
  obtain ⟨rfl, hpixel, hsymbol, -⟩ := h
  rw [keys_struct, hpixel, Option.filter_some, if_pos hsymbol]
  rfl

/-- A struct whose name is taken is reported. -/
theorem reported (h : k.Retakes ctx r name) :
    ∃ m, ctx.scope.get? name.hex = some m ∧
      .alreadyDefined name m ∈ (k.generate ctx r).2.problems := by
  obtain ⟨rfl, hpixel, hsymbol, htaken⟩ := h
  obtain ⟨m, hm⟩ := Option.isSome_iff_exists.1 htaken
  refine ⟨m, hm, ?_⟩
  rw [← r.peek_next] at hpixel
  -- the report comes before the fields are read, which adds reports only
  let named := (r.next.2.advance 1).report (.alreadyDefined name m) (.index r.next.2.index)
  have hgenerate : (Keyword.struct.generate ctx r).2 = (named.readNames .struct 2).2 := by
    simp only [Keyword.generate, Keyword.generator, generateStruct,
      Reader.readName_symbol hpixel hsymbol, hm]
    rfl
  obtain ⟨added, hadded⟩ := (Reader.reads_readNames .struct 2 named).exists_problems
  rw [hgenerate, hadded, Reader.problems_report]
  simp

end Keyword.Retakes

/-! ## What a run rebinds -/

theorem Scope.get?_defineAll_of_ne {s : Scope} {entries : List (String × Member)} {key : String}
    (h : ∀ entry ∈ entries, entry.1 ≠ key) : (s.defineAll entries).get? key = s.get? key := by
  refine List.foldlRecOn (motive := fun t : Scope => t.get? key = s.get? key) entries _ rfl ?_
  intro t ht entry hentry
  rw [Scope.get?_define, if_neg (h entry hentry).symm, ht]

namespace Visit

/-- The visit is of a struct of this name, which is taken. -/
def Retakes (v : Visit) (name : Pixel) : Prop :=
  v.entry.keyword.Retakes v.context (v.state.entryReader v.entry) name

variable {v : Visit}

/-- A key that is taken keeps its member, unless the visit is of a struct of that name. -/
theorem get?_bound {key : String} {m : Member} (hkey : v.state.scope.get? key = some m)
    (hpending : ∀ p, v.state.pending = some p → v.state.scope.get? p.key = none)
    (h : ∀ name, v.Retakes name → name.hex ≠ key) :
    (v.state.bound v.context v.generated).get? key = some m := by
  have htaken : (v.context.scope.get? key).isSome := Option.isSome_iff_exists.2 ⟨m, hkey⟩
  have hdefined : ∀ entry ∈ v.generated.definitions, entry.1 ≠ key := by
    rintro entry hentry rfl
    have hmem : entry.1 ∈ v.generated.keys :=
      List.mem_append_left _ (List.mem_map_of_mem hentry)
    obtain ⟨name, hretakes, hname⟩ := (Keyword.mem_keys_iff htaken).1 hmem
    exact h name hretakes hname
  have hall := (Scope.get?_defineAll_of_ne hdefined).trans hkey
  unfold State.bound
  cases hwaits : v.state.pending with
  | none => exact hall
  | some p =>
    have hwaiting : key ≠ p.key := by
      rintro rfl
      rw [hpending p hwaits] at hkey
      cases hkey
    dsimp only
    split
    · rw [Scope.get?_define, Pending.resolve, if_neg hwaiting, hall]
    · exact hall

/-- A struct takes its name over. -/
theorem Retakes.get?_bound {name : Pixel} (h : v.Retakes name) :
    ∃ build : Overload, (v.state.bound v.context v.generated).get? name.hex =
      some (.struct name.identifier build) := by
  obtain ⟨build, hdefinitions⟩ := h.definitions
  have hgenerated : v.generated.definitions = _ := hdefinitions
  have hfunction : v.context.declaresFunction = false := by
    rw [context, State.context, h.keyword]
    rfl
  refine ⟨build, ?_⟩
  rw [State.bound, hgenerated, hfunction]
  cases v.state.pending <;> exact (Scope.get?_define _ _ _ _).trans (if_pos rfl)

end Visit

namespace Language

variable {l : Language} {pixels : List Pixel} {v : Visit}

/-- The name of a function that waits for its block is not taken yet. -/
theorem fresh_pending (hv : v ∈ l.visits pixels) {p : Pending} (hp : v.state.pending = some p) :
    v.state.scope.get? p.key = none := by
  obtain ⟨i, hi⟩ := List.mem_iff_getElem?.1 hv
  obtain ⟨hopen, k, u, name, rfl, hu, hdeclares, rfl⟩ := (pending_visits_eq_some hi p).1 hp
  rw [(State.then_visits hu hi).scope_blockOpen hdeclares.1 hopen]
  exact hdeclares.2.2.2

/-- **Only a struct takes a name over.** Whatever its context and its pixels, no statement binds a
name that is taken, at once or with the block that follows, unless it is a struct of that name. Such
a struct is reported, and binds its name and no other. In a program, every name keeps its member
when the names of a statement are bound, except the name that a struct takes over. -/
theorem redefines_iff_retakes (l : Language) (pixels : List Pixel) :
    (∀ (k : Keyword) (ctx : Context) (r : Reader),
      ((∀ key ∈ (k.generate ctx r).1.keys, ctx.scope.get? key = none) ↔
        ∀ name, ¬k.Retakes ctx r name) ∧
      ∀ name, k.Retakes ctx r name → (k.generate ctx r).1.keys = [name.hex] ∧
        ∃ m, ctx.scope.get? name.hex = some m ∧
          .alreadyDefined name m ∈ (k.generate ctx r).2.problems) ∧
    ∀ v ∈ l.visits pixels, ∀ (key : String) (m : Member), v.state.scope.get? key = some m →
      ((∀ name, v.Retakes name → name.hex ≠ key) →
        (v.state.bound v.context v.generated).get? key = some m) ∧
      ∀ name, v.Retakes name → name.hex = key → ∃ build : Overload,
        (v.state.bound v.context v.generated).get? key = some (.struct name.identifier build) := by
  refine ⟨fun k ctx r => ⟨⟨?_, ?_⟩, fun name h => ⟨h.keys, h.reported⟩⟩, fun v hv key m hkey => ?_⟩
  · intro hfresh name h
    have htaken := h.taken
    rw [hfresh name.hex (h.keys ▸ .head _)] at htaken
    exact Bool.false_ne_true htaken
  · intro h key hmem
    rw [← Option.not_isSome_iff_eq_none]
    intro htaken
    obtain ⟨name, hretakes, -⟩ := (Keyword.mem_keys_iff htaken).1 hmem
    exact h name hretakes
  · refine ⟨Visit.get?_bound hkey fun p => fresh_pending hv, ?_⟩
    rintro name h rfl
    exact h.get?_bound

/-- A variable, and a struct of the same name. -/
def takenName : List Entry :=
  [rowEntry .declare 0 [rowPixel .symbol 1, rowPixel (.boolean true) 2] 1,
    rowEntry .struct 3 [rowPixel .symbol 4] 1]

theorem redefines_takenName :
    let pixels := takenName.flatMap (·.partition.pixels)
    ∃ v, (plain.visits pixels)[1]? = some v ∧
      v.state.scope.get? "000000" = some (.var "_000000") ∧ v.Retakes (rowPixel .symbol 4) ∧
      v.generated.keys = ["000000"] ∧ ∃ build : Overload,
        (v.state.bound v.context v.generated).get? "000000" = some (.struct "_000000" build) := by
  intro pixels
  have hqueue : enqueue (subdivide pixels) = takenName := by decide
  obtain ⟨v, hv, hentry⟩ := exists_visit plain (i := 1) (by rw [hqueue]; rfl)
  have hget : (plain.visits pixels)[1]?.map (·.state.scope.get? "000000") =
      some (some (.var "_000000")) := by decide +kernel
  rw [hv] at hget
  have htaken : v.state.scope.get? "000000" = some (.var "_000000") := Option.some.inj hget
  have hretakes : v.Retakes (rowPixel .symbol 4) := by
    refine ⟨by rw [hentry]; rfl, ?_, rfl, ?_⟩
    · rw [Visit.entryReader_eq (by rw [hentry]; decide), hentry]
      rfl
    · exact Option.isSome_iff_exists.2 ⟨_, htaken⟩
  obtain ⟨hstatement, hrun⟩ := redefines_iff_retakes plain pixels
  refine ⟨v, hv, htaken, hretakes, ((hstatement _ _ _).2 _ hretakes).1, ?_⟩
  exact (hrun v (List.mem_of_getElem? hv) _ _ htaken).2 _ hretakes rfl

end Language

end PixelLang
