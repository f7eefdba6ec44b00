import Mathlib.Data.List.Induction
import PixelLang.Proofs.Choices
import PixelLang.Proofs.Matching
import PixelLang.Proofs.Texts

/-!
# Functions and their blocks

The declaration of a function and its parameters are two entries: the name waits (`State.pending`)
until the block of the function is opened. `Partition.parameterKeys` says, without a reader, which
parameters a block has. The function that is bound, the text of the block and the names inside it
all have these (`Language.function_registered`), and a function waits nowhere but between the two
entries.
-/

set_option autoImplicit false

namespace PixelLang

/-! ## Lists of names -/

/-- The keys of the symbols after the keyword, each at its first place. -/
def Partition.parameterKeys (p : Partition) : List String :=
  ((p.tail.filter (·.isSymbol)).map (·.hex)).eraseDups

/-- What a key is called in generated code. -/
def keyName (key : String) : String := "_" ++ key

theorem eraseDups_concat {α : Type} [BEq α] [LawfulBEq α] (as : List α) (a : α) :
    (as ++ [a]).eraseDups = if a ∈ as then as.eraseDups else as.eraseDups ++ [a] := by
  rw [List.eraseDups_append]
  by_cases h : a ∈ as <;> simp [List.removeAll, List.eraseDups_cons, h]

theorem Reader.hexes_readNames (k : Keyword) (token : Nat) (r : Reader) :
    (r.readNames k token).1.map (·.hex) =
      ((r.remaining.filter (·.isSymbol)).map (·.hex)).eraseDups := by
  unfold readNames
  -- the last pixel is a new name exactly if its key is not among the names before it
  induction r.remaining using List.reverseRecOn with
  | nil => rfl
  | append_singleton pixels p ih =>
    rw [List.foldl_concat, readNamesStep]
    cases hsymbol : p.isSymbol with
    | false => simpa [hsymbol] using ih
    | true =>
      have hknown : (pixels.foldl (readNamesStep k token) ([], r)).1.any (·.hex == p.hex) = true ↔
          p.hex ∈ (pixels.filter (·.isSymbol)).map (·.hex) := by
        rw [← List.mem_eraseDups, ← ih, List.any_eq_true, List.mem_map]
        simp
      rw [List.filter_append, List.filter_singleton, hsymbol, cond_true, List.map_append,
        List.map_singleton, eraseDups_concat, ← ih]
      simp only [Bool.not_true, Bool.false_eq_true, ↓reduceIte, hknown]
      split <;> simp

/-! ## Bindings of one frame -/

namespace Scope

theorem localBindings_define (s : Scope) (key : String) (m : Member) :
    (s.define key m).localBindings = s.localBindings.insert key m := by
  obtain ⟨_ | ⟨frame, outer⟩, globals⟩ := s <;> rfl

theorem get?_localBindings_defineAll (s : Scope) (keys : List String) (f : String → Member)
    (key : String) :
    (s.defineAll (keys.map fun k => (k, f k))).localBindings.get? key =
      if key ∈ keys then some (f key) else s.localBindings.get? key := by
  induction keys generalizing s with
  | nil => rfl
  | cons k keys ih =>
    rw [List.map_cons, defineAll, List.foldl_cons, ← defineAll, ih, localBindings_define,
      Bindings.get?_insert]
    grind

end Scope

/-! ## The two entries of a function -/

namespace Visit

variable {v w : Visit} {name : Pixel}

theorem definitions_generateDeclare {ctx : Context} (h : ctx.next = some .blockOpen) (r : Reader) :
    (generateDeclare ctx r).1.definitions = [] := by
  unfold generateDeclare
  rcases r.readName .declare 1 with ⟨_ | name, r'⟩
  · rfl
  · dsimp only
    rw [if_pos h]
    rfl

/-- Before its block, the declaration of a function binds nothing and opens no scope. -/
theorem scope_after_declare (hk : v.entry.keyword = .declare) (hnext : v.next = some .blockOpen) :
    v.after.scope = v.state.scope := by
  rw [scope_after_of_not_opens (by rw [hk]; rfl)]
  refine bound_eq_scope ?_ ?_
  · rw [generated, hk]
    exact definitions_generateDeclare hnext _
  · rw [context, State.context, hk]
    rfl

/-- A block after a declaration is opened in the scope of the declaration. -/
theorem Then.scope_blockOpen (h : v.Then w) (hv : v.entry.keyword = .declare)
    (hw : w.entry.keyword = .blockOpen) : w.state.scope = v.state.scope := by
  rw [h.state, hv, hw, State.scope_settle_bodyFollows (.inr rfl)]
  exact scope_after_declare hv (h.next.trans (congrArg some hw))

/-- What comes of the names after the keyword that opens a block. -/
theorem generated_blockOpen (hw : w.entry.keyword = .blockOpen) :
    ∃ names : List Pixel, names.map (·.hex) = w.entry.partition.parameterKeys ∧
      w.generated.code = openingCode w.context names ∧ w.generated.definitions = [] ∧
      w.generated.parameters = names.map fun p => (p.hex, .const p.identifier) := by
  have hreader : w.state.entryReader w.entry = w.entry.reader :=
    entryReader_eq (by rw [hw]; nofun)
  have hnames := Reader.hexes_readNames .blockOpen 1 w.entry.reader.next.2
  refine ⟨_, hnames, ?_⟩
  rw [generated, hreader, hw]
  exact ⟨rfl, rfl, rfl⟩

end Visit

/-- The function `name` with these parameters. -/
def functionMember (name : Pixel) (keys : List String) : Member :=
  .func name.identifier [⟨keys.map fun key => .named (keyName key)⟩] false

namespace Visit

variable {v w : Visit} {name : Pixel}

theorem declaresFunction_context (hw : w.entry.keyword = .blockOpen)
    (hpending : w.state.pending.isSome) : w.context.declaresFunction = true := by
  rw [context, State.context, hw, hpending]
  rfl

/-- The parameters of a block are its keys, bound as constants. -/
theorem parameters_blockOpen (hw : w.entry.keyword = .blockOpen) :
    w.generated.parameters =
      w.entry.partition.parameterKeys.map fun key => (key, .const (keyName key)) := by
  obtain ⟨names, hnames, -, -, hparameters⟩ := generated_blockOpen hw
  rw [hparameters, ← hnames, List.map_map]
  rfl

theorem code_blockOpen (hw : w.entry.keyword = .blockOpen) (hpending : w.state.pending.isSome) :
    w.generated.code =
      "(" ++ String.intercalate ", "
        (w.entry.partition.parameterKeys.map fun key => keyName key ++ ": Any?") ++
        "): Any? \x7b" := by
  obtain ⟨names, hnames, hcode, -, -⟩ := generated_blockOpen hw
  rw [hcode, openingCode, if_pos (declaresFunction_context hw hpending), typedNames, ← hnames,
    List.map_map]
  simp only [String.empty_append]
  rfl

/-- The block of a function that waits binds it, with the parameters of the block. -/
theorem bound_function (hw : w.entry.keyword = .blockOpen)
    (hpending : w.state.pending = some ⟨name.hex, name.identifier⟩) :
    w.state.bound w.context w.generated =
      w.state.scope.define name.hex (functionMember name w.entry.partition.parameterKeys) := by
  obtain ⟨names, -, -, hdefinitions, -⟩ := generated_blockOpen hw
  have hfunction := declaresFunction_context hw (by rw [hpending]; rfl)
  rw [State.bound, hpending, hdefinitions]
  simp only [hfunction, ↓reduceIte, Pending.resolve, parameters_blockOpen hw, List.map_map]
  rfl

end Visit

/-! ## Functions that wait -/

theorem State.pending_atEnd {previous : Option Keyword} {q : List Entry} {s : State}
    (h : q = [] → s.pending = none) : (atEnd previous q s).pending = none := by
  induction q generalizing previous s with
  | nil => rw [atEnd, pending_settle, h rfl]
  | cons e rest ih =>
    rw [atEnd_cons]
    refine ih fun hrest => ?_
    subst hrest
    -- no block follows the last entry
    rw [Option.eq_none_iff_forall_ne_some]
    intro p hp
    cases ((s.visit previous e []).pending_after_eq_some p).1 hp |>.1

namespace Language

/-- **A function is registered once, where it is declared, with the parameters of its block.** Let
an entry declare a new name and the next one open a block. The block is generated in the scope of
the declaration. Before its own scope is opened, the innermost scope there binds the name to a
function of the program with a single overload, the parameters of which are the symbols of the
block; the text of the block lists the same names, and in its scope they are constants, and all
there is. Conversely a function waits at an entry only if the entry opens a block and the one before
declares it, and none waits at the end. -/
theorem function_registered (l : Language) (pixels : List Pixel) :
    (∀ (i : Nat) (v w : Visit) (name : Pixel), (l.visits pixels)[i]? = some v →
      (l.visits pixels)[i + 1]? = some w → v.Declares name → w.entry.keyword = .blockOpen →
      let keys := w.entry.partition.parameterKeys
      let scope := w.state.bound w.context w.generated
      w.state.scope = v.state.scope ∧
      scope = v.state.scope.define name.hex (functionMember name keys) ∧
      scope.localBindings.get? name.hex = some (functionMember name keys) ∧
      w.generated.code =
        "(" ++ String.intercalate ", " (keys.map fun key => keyName key ++ ": Any?") ++
          "): Any? \x7b" ∧
      (w.reader.diagnostics = [] → w.text = w.generated.code) ∧
      w.after.scope =
        (scope.push (some (State.entryOwner w.context w.entry)) false).defineAll
          (keys.map fun key => (key, .const (keyName key))) ∧
      ∀ key : String, w.after.scope.localBindings.get? key =
        if key ∈ keys then some (.const (keyName key)) else none) ∧
    (∀ (i : Nat) (w : Visit) (p : Pending), (l.visits pixels)[i]? = some w →
      w.state.pending = some p → w.entry.keyword = .blockOpen ∧
        ∃ (k : Nat) (v : Visit) (name : Pixel), k + 1 = i ∧ (l.visits pixels)[k]? = some v ∧
          v.Declares name ∧ p = ⟨name.hex, name.identifier⟩) ∧
    (l.atEnd pixels).pending = none := by
  refine ⟨fun i v w name hv hw hdeclares hopen => ?_,
    fun i w p hw => (pending_visits_eq_some hw p).1,
    State.pending_atEnd fun _ => (startState_spec l _).2.2⟩
  have hscope : w.state.scope = v.state.scope :=
    (State.then_visits hv hw).scope_blockOpen hdeclares.1 hopen
  have hpending : w.state.pending = some ⟨name.hex, name.identifier⟩ :=
    (pending_visits_eq_some hw _).2 ⟨hopen, i, v, name, rfl, hv, hdeclares, rfl⟩
  have hbound := Visit.bound_function hopen hpending
  have hafter := State.scope_after_blockOpen hopen
  rw [Visit.parameters_blockOpen hopen] at hafter
  refine ⟨hscope, hscope ▸ hbound, ?_, Visit.code_blockOpen hopen (by rw [hpending]; rfl),
    fun h => ?_, hafter, fun key => ?_⟩
  · rw [hbound, Scope.localBindings_define, Bindings.get?_insert, if_pos rfl]
  · rw [w.text_eq, if_pos h]
  · rw [hafter, Scope.get?_localBindings_defineAll]
    rfl

theorem function_functionOfBlocks :
    let pixels := functionOfBlocks.flatMap (·.partition.pixels)
    ∃ v w : Visit, (plain.visits pixels)[0]? = some v ∧ (plain.visits pixels)[1]? = some w ∧
      v.Declares (rowPixel .symbol 1) ∧ w.entry.keyword = .blockOpen ∧
      w.entry.partition.parameterKeys = ["070707"] ∧
      (w.state.bound w.context w.generated).localBindings.get? "000000" =
        some (functionMember (rowPixel .symbol 1) ["070707"]) := by
  intro pixels
  have hqueue : enqueue (subdivide pixels) = functionOfBlocks := by decide
  obtain ⟨v, hv, hventry⟩ := exists_visit plain (i := 0) (by rw [hqueue]; rfl)
  obtain ⟨w, hw, hwentry⟩ := exists_visit plain (i := 1) (by rw [hqueue]; rfl)
  have hopen : w.entry.keyword = .blockOpen := by rw [hwentry]; rfl
  have hkeys : w.entry.partition.parameterKeys = ["070707"] := by rw [hwentry]; decide
  have hdeclares : v.Declares (rowPixel .symbol 1) := by
    refine ⟨by rw [hventry]; rfl, by rw [hventry]; rfl, rfl, ?_⟩
    rw [(state_visits_zero hv).1, (startState_spec plain _).2.1]
    rfl
  obtain ⟨-, -, hget, -⟩ := (function_registered plain pixels).1 0 v w _ hv hw hdeclares hopen
  rw [hkeys] at hget
  exact ⟨v, w, hv, hw, hdeclares, hopen, hkeys, hget⟩

end Language

end PixelLang
