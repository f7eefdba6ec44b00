import PixelLang.Proofs.Functions

/-!
# What a program binds

A program binds names in four places: variables, functions, structs and parameters. In each of them
the name is a symbol pixel (`Pixel.Names`), and its key is the hex text of the pixel, which no other
colour has (`Colour.hex_injective`).

* `Language.Passes`: the scopes that an evaluation goes through while names are bound, scopes opened
  and scopes left.
* `Language.Invariant.passes`: what binding a symbol, opening a scope and leaving one keep holds of
  all of them.
* `Language.library_unshadowed`: a library symbol means what it means in the global scope.
-/

set_option autoImplicit false

namespace PixelLang

/-! ## Hex texts -/

namespace Text.Hex

theorem digit_inj {m n : Nat} (hm : m < 16) (hn : n < 16) (h : digit m = digit n) : m = n := by
  have hvalue := value?_digit m hm
  rw [h, value?_digit n hn] at hvalue
  exact (Option.some.inj hvalue).symm

theorem byte_append_inj {a b : UInt8} {as bs : List Char} (h : byte a ++ as = byte b ++ bs) :
    a = b ∧ as = bs := by
  simp only [byte, List.cons_append, List.nil_append, List.cons.injEq] at h
  obtain ⟨hhigh, hlow, hrest⟩ := h
  have ha := a.toNat_lt
  have hb := b.toNat_lt
  have hdiv := digit_inj (by omega) (by omega) hhigh
  have hmod := digit_inj (by omega) (by omega) hlow
  exact ⟨UInt8.toNat_inj.1 (by omega), hrest⟩

theorem exists_digit_of_mem_byte {b : UInt8} {ch : Char} (h : ch ∈ byte b) :
    ∃ n < 16, ch = digit n := by
  have hb := b.toNat_lt
  simp only [byte, List.mem_cons, List.not_mem_nil, or_false] at h
  rcases h with rfl | rfl
  · exact ⟨b.toNat / 16, by omega, rfl⟩
  · exact ⟨b.toNat % 16, by omega, rfl⟩

end Text.Hex

namespace Colour

open Text.Hex

theorem hexDigits_eq (c : Colour) :
    c.hexDigits =
      byte c.red ++ (byte c.green ++ (byte c.blue ++
        if c.alpha = 255 then [] else byte c.alpha)) := by
  by_cases h : c.alpha = 255 <;> simp [hexDigits, isSolid, h]

theorem exists_digit_of_mem_hex {c : Colour} {ch : Char} (h : ch ∈ c.hex.toList) :
    ∃ n < 16, ch = digit n := by
  rw [hex, String.toList_ofList, hexDigits_eq] at h
  simp only [List.mem_append] at h
  rcases h with h | h | h | h
  · exact exists_digit_of_mem_byte h
  · exact exists_digit_of_mem_byte h
  · exact exists_digit_of_mem_byte h
  · split at h
    · exact absurd h List.not_mem_nil
    · exact exists_digit_of_mem_byte h

/-- **A colour is known by its hex text.** -/
theorem hex_injective : Function.Injective hex := by
  intro c d h
  have hdigits := String.ofList_injective h
  rw [hexDigits_eq, hexDigits_eq] at hdigits
  obtain ⟨hred, hdigits⟩ := byte_append_inj hdigits
  obtain ⟨hgreen, hdigits⟩ := byte_append_inj hdigits
  obtain ⟨hblue, hdigits⟩ := byte_append_inj hdigits
  have halpha : c.alpha = d.alpha := by
    -- a solid colour has two digits less than any other
    by_cases hc : c.alpha = 255 <;> by_cases hd : d.alpha = 255 <;>
      simp only [hc, hd, ↓reduceIte] at hdigits ⊢
    · exact absurd hdigits nofun
    · exact absurd hdigits nofun
    · rw [← List.append_nil (byte c.alpha), ← List.append_nil (byte d.alpha)] at hdigits
      exact (byte_append_inj hdigits).1
  cases c
  cases d
  simp_all

end Colour

/-! ## Names are symbols -/

/-- The pixel is a symbol, and the key and the member are those of a name it stands for. -/
structure Pixel.Names (p : Pixel) (key : String) (m : Member) : Prop where
  isSymbol : p.isSymbol
  key : key = p.hex
  name : m.name = p.identifier

namespace Reader

theorem pixels_next (r : Reader) : r.next.2.pixels = r.pixels := by
  unfold next
  cases r.peek <;> rfl

theorem mem_of_readName {k : Keyword} {token : Nat} {r : Reader} {p : Pixel}
    (h : (r.readName k token).1 = some p) : p ∈ r.pixels ∧ p.isSymbol := by
  rw [fst_readName] at h
  obtain ⟨hpeek, hsymbol⟩ := Option.filter_eq_some_iff.1 h
  exact ⟨List.mem_of_getElem? hpeek, hsymbol⟩

theorem mem_of_readNames {k : Keyword} {token : Nat} {r : Reader} {p : Pixel}
    (h : p ∈ (r.readNames k token).1) : p ∈ r.pixels ∧ p.isSymbol := by
  let IsName (acc : List Pixel × Reader) : Prop := ∀ q ∈ acc.1, q ∈ r.pixels ∧ q.isSymbol
  have hfold : IsName (r.readNames k token) := by
    refine List.foldlRecOn (motive := IsName) r.remaining _ nofun fun acc hacc q hq => ?_
    unfold readNamesStep
    dsimp only
    split
    · exact hacc
    · rename_i hsymbol
      split
      · exact hacc
      · intro q' hq'
        rcases List.mem_append.1 hq' with hq' | hq'
        · exact hacc q' hq'
        · obtain rfl := List.mem_singleton.1 hq'
          exact ⟨List.mem_of_mem_drop hq, by simpa using hsymbol⟩
  exact hfold p h

end Reader

theorem names_generateDeclare {ctx : Context} {r : Reader} {entry : String × Member}
    (h : entry ∈ (generateDeclare ctx r).1.definitions) :
    ∃ p ∈ r.pixels, p.Names entry.1 entry.2 := by
  unfold generateDeclare at h
  rcases hread : r.readName .declare 1 with ⟨_ | name, r'⟩
  · simp [hread] at h
  · obtain ⟨hmem, hsymbol⟩ := Reader.mem_of_readName (by rw [hread])
    simp only [hread] at h
    split at h
    · simp [declareFunction] at h
    · unfold declareVariable at h
      dsimp only at h
      split at h
      · obtain rfl := List.mem_singleton.1 h
        exact ⟨name, hmem, hsymbol, rfl, rfl⟩
      · simp at h
      · simp at h

theorem names_generateStruct {ctx : Context} {r : Reader} {entry : String × Member}
    (h : entry ∈ (generateStruct ctx r).1.definitions) :
    ∃ p ∈ r.pixels, p.Names entry.1 entry.2 := by
  unfold generateStruct at h
  rcases hread : r.readName .struct 1 with ⟨_ | name, r'⟩
  · simp [hread] at h
  · obtain ⟨hmem, hsymbol⟩ := Reader.mem_of_readName (by rw [hread])
    simp only [hread] at h
    obtain rfl := List.mem_singleton.1 h
    exact ⟨name, hmem, hsymbol, rfl, rfl⟩

theorem names_generateOpen {ctx : Context} {r : Reader} {entry : String × Member}
    (h : entry ∈ (generateOpen ctx r).1.parameters) :
    ∃ p ∈ r.pixels, p.Names entry.1 entry.2 := by
  obtain ⟨p, hp, rfl⟩ := List.mem_map.1 h
  obtain ⟨hmem, hsymbol⟩ := Reader.mem_of_readNames hp
  exact ⟨p, hmem, hsymbol, rfl, rfl⟩

/-- Only a declaration and a struct bind names around them. -/
theorem Keyword.definitions_generate {k : Keyword} (hdeclare : k ≠ .declare) (hstruct : k ≠ .struct)
    (ctx : Context) (r : Reader) : (k.generate ctx r).1.definitions = [] := by
  unfold generate
  cases k with
  | declare | struct => contradiction
  | call =>
    simp only [generator, generateCall]
    split <;> rfl
  | ret =>
    simp only [generator, generateLeave]
    split <;> rfl
  | _ => rfl

/-- Only the start of a block has parameters. -/
theorem Keyword.parameters_generate {k : Keyword} (hopen : k ≠ .blockOpen) (ctx : Context)
    (r : Reader) : (k.generate ctx r).1.parameters = [] := by
  unfold generate
  cases k with
  | blockOpen => contradiction
  | declare =>
    simp only [generator, generateDeclare]
    split
    · rfl
    · split
      · rfl
      · simp only [declareVariable]
        split <;> rfl
  | call =>
    simp only [generator, generateCall]
    split <;> rfl
  | ret =>
    simp only [generator, generateLeave]
    split <;> rfl
  | struct =>
    simp only [generator, generateStruct]
    split <;> rfl
  | _ => rfl

/-- **Statements bind symbols.** What a statement binds, around it or in its block, are symbols
among its pixels. -/
theorem names_generate {k : Keyword} {ctx : Context} {r : Reader} {entry : String × Member}
    (h : entry ∈ (k.generate ctx r).1.definitions ∨ entry ∈ (k.generate ctx r).1.parameters) :
    ∃ p ∈ r.pixels, p.Names entry.1 entry.2 := by
  rw [← r.pixels_next]
  rcases h with h | h
  · by_cases hdeclare : k = .declare
    · subst hdeclare
      exact names_generateDeclare h
    by_cases hstruct : k = .struct
    · subst hstruct
      exact names_generateStruct h
    rw [Keyword.definitions_generate hdeclare hstruct] at h
    exact absurd h List.not_mem_nil
  · by_cases hopen : k = .blockOpen
    · subst hopen
      exact names_generateOpen h
    rw [Keyword.parameters_generate hopen] at h
    exact absurd h List.not_mem_nil

/-! ## The scopes of an evaluation -/

/-- The scopes in which a visit has bound some of its names, or opened its own scope and bound some
of the parameters there. -/
inductive Visit.Passes (v : Visit) : Scope → Prop
  | binding (n : Nat) : Passes v (v.state.scope.defineAll (v.generated.definitions.take n))
  | bound : Passes v (v.state.bound v.context v.generated)
  | opening {temporary : Bool} (n : Nat) :
      State.opening? v.context v.entry.keyword = some temporary →
        Passes v (((v.state.bound v.context v.generated).push
          (some (State.entryOwner v.context v.entry)) temporary).defineAll
            ((if temporary then [] else v.generated.parameters).take n))

/-- The scopes that an evaluation goes through: the global one, those of the visits, and those that
are reached from them by leaving one frame after the other. -/
inductive Language.Passes (l : Language) (pixels : List Pixel) : Scope → Prop
  | start : Passes l pixels l.globalScope
  | visit {v : Visit} {s : Scope} : v ∈ l.visits pixels → v.Passes s → Passes l pixels s
  | leave {s outer : Scope} : Passes l pixels s → s.pop? = some outer → Passes l pixels outer

namespace Visit

theorem passes_state (v : Visit) : v.Passes v.state.scope := .binding 0

theorem passes_after (v : Visit) : v.Passes v.after.scope := by
  rw [scope_after, State.scopeAfter]
  cases hopen : State.opening? v.context v.entry.keyword with
  | none => exact .bound
  | some temporary =>
    cases temporary with
    | true => exact .opening 0 hopen
    | false =>
      have hall := Passes.opening v.generated.parameters.length hopen
      simpa using hall

end Visit

namespace State

/-- What leaving one frame keeps, leaving many keeps. -/
theorem leave_of_append {P : Scope → Prop}
    (hleave : ∀ s outer : Scope, P s → s.pop? = some outer → P outer) (inner frames : List Frame)
    {s : Scope} (hs : P s) (hframes : inner ++ frames = s.frames) :
    P { s with frames := frames } := by
  induction inner generalizing s with
  | nil =>
    obtain rfl : frames = s.frames := hframes
    exact hs
  | cons frame inner ih =>
    have hpop : s.pop? = some { s with frames := inner ++ frames } := by
      rw [Scope.pop?, ← hframes]
      rfl
    exact ih (s := { s with frames := inner ++ frames }) (hleave s _ hs hpop) rfl

/-- Settling leaves some of the innermost frames. -/
theorem settle_of_leave {P : Scope → Prop}
    (hleave : ∀ s outer : Scope, P s → s.pop? = some outer → P outer) {s : State} (hs : P s.scope)
    (previous current : Option Keyword) : P (s.settle previous current).scope := by
  obtain ⟨inner, hinner⟩ := settledStack_suffix (·.temporary) previous current s.scope.frames
  rw [State.scope_settle]
  exact leave_of_append hleave inner _ hs hinner

/-- The state at the end is what the last visit left, settled. -/
theorem atEnd_of_getLast? {q : List Entry} {previous : Option Keyword} {s : State} {v : Visit}
    (h : (visits previous q s).getLast? = some v) :
    atEnd previous q s = v.after.settle (some v.entry.keyword) none := by
  induction q generalizing previous s with
  | nil => cases h
  | cons e rest ih =>
    rw [atEnd_cons]
    cases rest with
    | nil =>
      obtain rfl := Option.some.inj h
      rfl
    | cons e' rest => exact ih h

end State

theorem Bindings.mem_insertEntry {key : String} {m : Member} {entries : List (String × Member)}
    {entry : String × Member} (h : entry ∈ insertEntry key m entries) :
    entry = (key, m) ∨ entry ∈ entries := by
  induction entries with
  | nil => exact .inl (List.mem_singleton.1 h)
  | cons first rest ih =>
    rw [insertEntry] at h
    split at h
    · rcases List.mem_cons.1 h with h | h
      · exact .inl h
      · exact .inr (.tail _ h)
    · rcases List.mem_cons.1 h with h | h
      · exact .inr (h ▸ .head _)
      · exact (ih h).imp id (.tail _)

namespace Language

variable {l : Language} {pixels : List Pixel} {v : Visit}

theorem mem_of_visit (hv : v ∈ l.visits pixels) {p : Pixel} (hp : p ∈ v.entry.partition.pixels) :
    p ∈ pixels := by
  have hentry : v.entry ∈ enqueue (subdivide pixels) := by
    rw [← map_entry_visits l]
    exact List.mem_map_of_mem hv
  rw [← flatMap_pixels_subdivide pixels]
  exact List.mem_flatMap_of_mem (mem_enqueue hentry).1 hp

theorem names_of_visit (hv : v ∈ l.visits pixels) {entry : String × Member}
    (h : entry ∈ v.generated.definitions ∨ entry ∈ v.generated.parameters) :
    ∃ p ∈ pixels, p.Names entry.1 entry.2 := by
  obtain ⟨p, hp, hnames⟩ := names_generate h
  have hpixels : (v.state.entryReader v.entry).pixels = v.entry.partition.pixels := by
    unfold State.entryReader
    split <;> rfl
  exact ⟨p, mem_of_visit hv (hpixels ▸ hp), hnames⟩

/-- A function that waits for its block has the name of a symbol of an earlier entry. -/
theorem names_of_pending (hv : v ∈ l.visits pixels) {waiting : Pending}
    (h : v.state.pending = some waiting) (parameters : List (String × Member)) :
    ∃ p ∈ pixels, p.Names (waiting.resolve parameters).1 (waiting.resolve parameters).2 := by
  obtain ⟨i, hi⟩ := List.mem_iff_getElem?.1 hv
  obtain ⟨-, k, u, name, -, hu, hdeclares, rfl⟩ := (pending_visits_eq_some hi waiting).1 h
  obtain ⟨-, hhead, hsymbol, -⟩ := hdeclares
  have hname : name ∈ u.entry.partition.pixels := .tail _ (List.mem_of_mem_head? hhead)
  exact ⟨name, mem_of_visit (List.mem_of_getElem? hu) hname, hsymbol, rfl, rfl⟩

/-- A property that the global scope has and that all changes of the scope keep. -/
structure Invariant (l : Language) (pixels : List Pixel) (P : Scope → Prop) : Prop where
  start : P l.globalScope
  leave {s outer : Scope} : P s → s.pop? = some outer → P outer
  push {s : Scope} (owner : Option Owner) (temporary : Bool) : P s → P (s.push owner temporary)
  define {s : Scope} {p : Pixel} {key : String} {m : Member} :
    P s → p ∈ pixels → p.Names key m → P (s.define key m)

/-- What holds of the bindings of a new frame, or of the global ones, and is kept by every name of
the program, is kept by the changes of the scope. -/
theorem invariant_of_bindings {F G : Bindings → Prop} (hempty : F .empty)
    (hglobal : G l.globalBindings)
    (hframe : ∀ (b : Bindings) (p : Pixel) (key : String) (m : Member),
      F b → p ∈ pixels → p.Names key m → F (b.insert key m))
    (hglobals : ∀ (b : Bindings) (p : Pixel) (key : String) (m : Member),
      G b → p ∈ pixels → p.Names key m → G (b.insert key m)) :
    l.Invariant pixels fun s => (∀ f ∈ s.frames, F f.members) ∧ G s.globals where
  start := ⟨fun _ hf => absurd hf List.not_mem_nil, hglobal⟩
  leave {s outer} hs hpop := by
    obtain ⟨_ | ⟨frame, frames⟩, globals⟩ := s
    · cases hpop
    · obtain rfl := Option.some.inj hpop
      exact ⟨fun f hf => hs.1 f (.tail _ hf), hs.2⟩
  push owner temporary hs := by
    refine ⟨fun f hf => ?_, hs.2⟩
    rcases List.mem_cons.1 hf with rfl | hf
    · exact hempty
    · exact hs.1 f hf
  define {s p key m} hs hp hnames := by
    -- The innermost frame takes the name, and the global bindings where no frame is open.
    obtain ⟨_ | ⟨frame, frames⟩, globals⟩ := s
    · exact ⟨hs.1, hglobals _ p key m hs.2 hp hnames⟩
    · refine ⟨fun f hf => ?_, hs.2⟩
      rcases List.mem_cons.1 hf with rfl | hf
      · exact hframe _ p key m (hs.1 frame (.head _)) hp hnames
      · exact hs.1 f (.tail _ hf)

namespace Invariant

variable {P : Scope → Prop} (h : l.Invariant pixels P) {s : Scope}
include h

theorem defineAll {entries : List (String × Member)} (hs : P s)
    (hentries : ∀ entry ∈ entries, ∃ p ∈ pixels, p.Names entry.1 entry.2) :
    P (s.defineAll entries) := by
  refine List.foldlRecOn entries _ hs fun s hs entry hentry => ?_
  obtain ⟨p, hp, hnames⟩ := hentries entry hentry
  exact h.define hs hp hnames

theorem bound (hv : v ∈ l.visits pixels) (hs : P v.state.scope) :
    P (v.state.bound v.context v.generated) := by
  have hall : P (v.state.scope.defineAll v.generated.definitions) :=
    h.defineAll hs fun entry hentry => names_of_visit hv (.inl hentry)
  unfold State.bound
  cases hpending : v.state.pending with
  | none => exact hall
  | some waiting =>
    dsimp only
    split
    · obtain ⟨p, hp, hnames⟩ := names_of_pending hv hpending v.generated.parameters
      exact h.define hall hp hnames
    · exact hall

/-- A visit keeps the property at all times. -/
theorem visit (hv : v ∈ l.visits pixels) (hstate : P v.state.scope) (hs : v.Passes s) : P s := by
  cases hs with
  | binding n =>
    exact h.defineAll hstate fun entry hentry =>
      names_of_visit hv (.inl (List.mem_of_mem_take hentry))
  | bound => exact h.bound hv hstate
  | @opening temporary n =>
    refine h.defineAll (h.push _ temporary (h.bound hv hstate)) fun entry hentry => ?_
    have hentry := List.mem_of_mem_take hentry
    split at hentry
    · exact absurd hentry List.not_mem_nil
    · exact names_of_visit hv (.inr hentry)

theorem state {i : Nat} (hv : (l.visits pixels)[i]? = some v) : P v.state.scope := by
  induction i generalizing v with
  | zero =>
    rw [(state_visits_zero hv).1, (startState_spec l _).2.1]
    exact h.start
  | succ i ih =>
    obtain ⟨u, hu, hthen⟩ := exists_then hv
    have hafter : P u.after.scope := h.visit (List.mem_of_getElem? hu) (ih hu) u.passes_after
    rw [hthen.state]
    exact State.settle_of_leave (fun _ _ => h.leave) hafter _ _

/-- **The invariant holds throughout**: of all scopes that the evaluation goes through. -/
theorem passes (hs : l.Passes pixels s) : P s := by
  induction hs with
  | start => exact h.start
  | visit hv hs =>
    obtain ⟨i, hi⟩ := List.mem_iff_getElem?.1 hv
    exact h.visit hv (h.state hi) hs
  | leave _ hpop ih => exact h.leave ih hpop

end Invariant

/-! ## Library symbols -/

/-- A function of a library and a colour that the scheme gives it. -/
def Offers (l : Language) (entry : String × Member) : Prop :=
  ∃ library ∈ l.libraries, ∃ f ∈ library.functions, ∃ swatch,
    l.scheme.get? (library.key f.name) = some swatch ∧ entry.1 ∈ swatch.hexes ∧ entry.2 = f.member

/-- **The global bindings** are functions of the libraries, by the colours of their keys. -/
theorem offers_of_mem_globalBindings {entry : String × Member}
    (h : entry ∈ l.globalBindings.entries) : l.Offers entry := by
  let Offered (b : Bindings) : Prop := ∀ entry ∈ b.entries, l.Offers entry
  have hinsert {b : Bindings} {key : String} {m : Member} (hb : Offered b)
      (hm : l.Offers (key, m)) : Offered (b.insert key m) := by
    intro entry hentry
    rcases Bindings.mem_insertEntry hentry with rfl | hentry
    · exact hm
    · exact hb entry hentry
  have hempty : Offered .empty := fun _ hentry => absurd hentry List.not_mem_nil
  refine List.foldlRecOn (motive := Offered) l.libraries _ hempty
    (fun b hb library hlibrary => ?_) _ h
  refine List.foldlRecOn (motive := Offered) library.functions _ hb fun b hb f hf => ?_
  unfold Library.bindFunction
  split
  · rename_i swatch hswatch
    refine List.foldlRecOn (motive := Offered) swatch.hexes _ hb fun b hb hex hhex => ?_
    exact hinsert hb ⟨library, hlibrary, f, hf, swatch, hswatch, hhex, rfl⟩
  · exact hb

theorem kind_of_mem_pixels {img : Image} {p : Pixel} (h : p ∈ l.pixels img) :
    p.kind = classify l.scheme l.catalog p.colour := by
  obtain ⟨hcell, -⟩ := List.mem_filter.1 h
  obtain ⟨⟨x, y, c⟩, -, rfl⟩ := List.mem_map.1 hcell
  rfl

/-- No frame binds the key, and the global bindings are as at the start. -/
def Unshadowed (l : Language) (key : String) (s : Scope) : Prop :=
  (∀ f ∈ s.frames, f.members.get? key = none) ∧ s.globals.get? key = l.globalBindings.get? key

theorem Unshadowed.get?_eq {key : String} {s : Scope} (h : l.Unshadowed key s) :
    s.get? key = l.globalScope.get? key := by
  have hframes : s.frames.findSome? (·.members.get? key) = none := List.findSome?_eq_none_iff.2 h.1
  rw [Scope.get?, hframes]
  exact h.2

/-- A key that is no symbol of the program is never bound by it. -/
theorem invariant_unshadowed {key : String} (h : ∀ p ∈ pixels, p.isSymbol → key ≠ p.hex) :
    l.Invariant pixels (l.Unshadowed key) := by
  have hinsert (b : Bindings) (p : Pixel) (k : String) (m : Member) (hp : p ∈ pixels)
      (hnames : p.Names k m) : (b.insert k m).get? key = b.get? key := by
    have hk : key ≠ k := hnames.key ▸ h p hp hnames.isSymbol
    rw [Bindings.get?_insert, if_neg hk]
  exact invariant_of_bindings (F := fun b => b.get? key = none)
    (G := fun b => b.get? key = l.globalBindings.get? key) rfl rfl
    (fun b p k m hb hp hnames => (hinsert b p k m hp hnames).trans hb)
    (fun b p k m hb hp hnames => (hinsert b p k m hp hnames).trans hb)

theorem passes_atEnd (l : Language) (pixels : List Pixel) :
    l.Passes pixels (l.atEnd pixels).scope := by
  cases hlast : (l.visits pixels).getLast? with
  | none =>
    have hqueue : enqueue (subdivide pixels) = [] := by
      rw [← map_entry_visits l, List.getLast?_eq_none_iff.1 hlast]
      rfl
    rw [atEnd, hqueue]
    show l.Passes pixels (l.startState _).scope
    rw [(startState_spec l _).2.1]
    exact .start
  | some v =>
    have hafter := Passes.visit (List.mem_of_getLast? hlast) v.passes_after
    rw [atEnd, State.atEnd_of_getLast? hlast]
    exact State.settle_of_leave (fun _ _ => .leave) hafter _ _

/-- **Libraries are never shadowed.** Take the program that an image shows, and the scopes that its
evaluation goes through: those in which the entries are generated, those they leave, the one at the
end and all between. In each of them, the key of a colour that is a library symbol is bound to what
it is bound to in the global scope. -/
theorem library_unshadowed (l : Language) (img : Image) :
    (∀ v ∈ l.visits (l.pixels img),
      l.Passes (l.pixels img) v.state.scope ∧ l.Passes (l.pixels img) v.after.scope) ∧
    l.Passes (l.pixels img) (l.atEnd (l.pixels img)).scope ∧
    ∀ (s : Scope) (c : Colour) (key : String), l.Passes (l.pixels img) s →
      classify l.scheme l.catalog c = .library key → s.get? c.hex = l.globalScope.get? c.hex := by
  refine ⟨fun v hv => ⟨.visit hv v.passes_state, .visit hv v.passes_after⟩, passes_atEnd l _,
    fun s c key hs hc => ?_⟩
  refine Unshadowed.get?_eq ((invariant_unshadowed fun p hp hsymbol heq => ?_).passes hs)
  -- a symbol of the same key would have the same colour, and so the same kind
  have hkind := kind_of_mem_pixels hp
  rw [← Colour.hex_injective heq, hc] at hkind
  simp [Pixel.isSymbol, hkind] at hsymbol

/-- A language in which functions are declared and a library has one function. -/
def declaring : Language :=
  let scheme := Scheme.empty.set Keyword.blockOpen.key (.ofColours [Scheme.solid 0x0099FF])
    |>.set "stdlib.sqrt" (.ofColours [Scheme.solid 0xCC66FF])
    |>.set Keyword.declare.key (.ofColours [Scheme.solid 0x9900FF])
  ⟨scheme, .standard, [.standard]⟩

/-- Declares a function of one parameter. -/
def declaringImage : Image :=
  .ofRows [[Scheme.solid 0x9900FF, Scheme.solid 0xF04080],
    [Scheme.solid 0x0099FF, Scheme.solid 0xF04081]]

theorem library_declaringImage :
    classify declaring.scheme declaring.catalog (Scheme.solid 0xCC66FF) = .library "stdlib.sqrt" ∧
      ∃ s, declaring.Passes (declaring.pixels declaringImage) s ∧
        s.get? "F04081" = some (.const "_F04081") ∧
        s.get? (Scheme.solid 0xCC66FF).hex = some (.func "sqrt" [.arity 1] true) := by
  have hkind : classify declaring.scheme declaring.catalog (Scheme.solid 0xCC66FF) =
      .library "stdlib.sqrt" := by decide +kernel
  obtain ⟨v, hv⟩ : ∃ v, (declaring.visits (declaring.pixels declaringImage))[1]? = some v :=
    Option.isSome_iff_exists.1 (by decide +kernel)
  have hbound : ((declaring.visits (declaring.pixels declaringImage))[1]?.map
      (·.after.scope.get? "F04081")) = some (some (.const "_F04081")) := by decide +kernel
  rw [hv] at hbound
  have hpasses := Passes.visit (List.mem_of_getElem? hv) v.passes_after
  refine ⟨hkind, v.after.scope, hpasses, Option.some.inj hbound, ?_⟩
  rw [(library_unshadowed declaring declaringImage).2.2 _ _ _ hpasses hkind]
  decide +kernel

end Language

end PixelLang
