import PixelLang.Keyword
import PixelLang.Member

/-!
# Scopes

A `Scope` is a chain: local frames, the innermost first, over the global bindings. Names are keyed
by the hex text of their colour. A frame is a block or temporary; it is owned by the statement
that opened it. The global bindings are neither, which the type says.
-/

set_option autoImplicit false

namespace PixelLang

/-- Members by key, each key once. -/
structure Bindings where
  entries : List (String × Member)
deriving DecidableEq

namespace Bindings

def empty : Bindings := ⟨[]⟩

def get? (b : Bindings) (key : String) : Option Member := b.entries.lookup key

/-- Puts a member in place of the one of the same key, or at the end. -/
def insertEntry (key : String) (m : Member) : List (String × Member) → List (String × Member)
  | [] => [(key, m)]
  | (k, old) :: rest => if key = k then (key, m) :: rest else (k, old) :: insertEntry key m rest

def insert (b : Bindings) (key : String) (m : Member) : Bindings :=
  ⟨insertEntry key m b.entries⟩

def size (b : Bindings) : Nat := b.entries.length

theorem lookup_insertEntry (key k : String) (m : Member) (entries : List (String × Member)) :
    (insertEntry key m entries).lookup k = if k = key then some m else entries.lookup k := by
  induction entries with
  | nil => grind [insertEntry]
  | cons entry rest ih => grind [insertEntry]

theorem get?_insert (b : Bindings) (key k : String) (m : Member) :
    (b.insert key m).get? k = if k = key then some m else b.get? k :=
  lookup_insertEntry key k m b.entries

end Bindings

/-- The statement a frame belongs to and the place of its keyword. -/
structure Owner where
  keyword : Keyword
  x : Nat
  y : Nat
deriving DecidableEq

structure Frame where
  owner : Option Owner
  /-- It ends with the statement that is the body of its owner. -/
  temporary : Bool
  members : Bindings
deriving DecidableEq

structure Scope where
  /-- The local frames, the innermost first. -/
  frames : List Frame
  globals : Bindings
deriving DecidableEq

namespace Scope

/-- The scope without local frames. -/
def ofGlobals (globals : Bindings) : Scope := ⟨[], globals⟩

def depth (s : Scope) : Nat := s.frames.length

def isGlobal (s : Scope) : Bool := s.frames.isEmpty

/-- The innermost frame is temporary. -/
def isTemporary (s : Scope) : Bool := s.frames.head?.any (·.temporary)

/-- Some frame is a block. -/
def inBlock (s : Scope) : Bool := s.frames.any (!·.temporary)

/-- Opens a frame inside the scope. -/
def push (s : Scope) (owner : Option Owner) (temporary : Bool) : Scope :=
  { s with frames := ⟨owner, temporary, .empty⟩ :: s.frames }

/-- The scope around the innermost frame. -/
def pop? (s : Scope) : Option Scope :=
  match s.frames with
  | [] => none
  | _ :: outer => some { s with frames := outer }

/-- The bindings of the innermost frame, or the global ones. -/
def localBindings (s : Scope) : Bindings :=
  match s.frames with
  | [] => s.globals
  | frame :: _ => frame.members

/-- Binds a key in the innermost frame, or globally. -/
def define (s : Scope) (key : String) (m : Member) : Scope :=
  match s.frames with
  | [] => { s with globals := s.globals.insert key m }
  | frame :: outer =>
    { s with frames := { frame with members := frame.members.insert key m } :: outer }

def defineAll (s : Scope) (entries : List (String × Member)) : Scope :=
  entries.foldl (fun s entry => s.define entry.1 entry.2) s

/-- The member a key is bound to in the innermost frame that binds it. -/
def get? (s : Scope) (key : String) : Option Member :=
  match s.frames.findSome? (·.members.get? key) with
  | some m => some m
  | none => s.globals.get? key

/-- The owner of the innermost of these frames that is owned by such a keyword, with its depth. -/
def enclosingFrame? (p : Keyword → Bool) : List Frame → Option (Nat × Owner)
  | [] => none
  | frame :: outer =>
    match frame.owner with
    | some owner =>
      if p owner.keyword then some (outer.length + 1, owner) else enclosingFrame? p outer
    | none => enclosingFrame? p outer

def enclosing? (s : Scope) (p : Keyword → Bool) : Option (Nat × Owner) :=
  enclosingFrame? p s.frames

/-- The frames with their depths, the global bindings as the last. -/
def layers (s : Scope) : List (Nat × Frame) :=
  s.frames.mapIdx (fun i frame => (s.depth - i, frame)) ++ [(0, ⟨none, false, s.globals⟩)]

/-! ## What the operations do to depth and look-up -/

@[simp]
theorem depth_push (s : Scope) (owner : Option Owner) (temporary : Bool) :
    (s.push owner temporary).depth = s.depth + 1 := rfl

@[simp]
theorem pop?_push (s : Scope) (owner : Option Owner) (temporary : Bool) :
    (s.push owner temporary).pop? = some s := rfl

@[simp]
theorem get?_push (s : Scope) (owner : Option Owner) (temporary : Bool) (key : String) :
    (s.push owner temporary).get? key = s.get? key := rfl

@[simp]
theorem depth_define (s : Scope) (key : String) (m : Member) :
    (s.define key m).depth = s.depth := by
  obtain ⟨_ | ⟨frame, outer⟩, globals⟩ := s <;> rfl

theorem get?_define (s : Scope) (key k : String) (m : Member) :
    (s.define key m).get? k = if k = key then some m else s.get? k := by
  obtain ⟨_ | ⟨frame, outer⟩, globals⟩ := s
  · simp [define, get?, Bindings.get?_insert]
  · by_cases h : k = key <;>
      simp [define, get?, Bindings.get?_insert, List.findSome?_cons, h]

end Scope

end PixelLang
