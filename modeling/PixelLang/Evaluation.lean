import PixelLang.Language
import PixelLang.Layout
import PixelLang.Queue
import PixelLang.Statement.Generate

/-!
# Evaluation

The `State` is what one statement leaves to the next: the scope, the code so far, a function that
waits for its block, and what was reported. Before a statement is evaluated the scope is settled:
scopes that ended with the statement before are left.

`evaluate` turns an image into code. Pixels before the first statement are reported; every
statement is then evaluated in turn, and an invalid one leaves a comment in the code. The JSON form
of an evaluation has its code, its flag and its diagnostics, and not the log.
-/

set_option autoImplicit false

namespace PixelLang

structure State where
  scope : Scope
  layout : Layout
  /-- A function whose block is the next statement. -/
  pending : Option Pending
  invalidated : Bool
  diagnostics : List Diagnostic
  log : List Event

namespace State

/-- The state in which a program starts. -/
def start (scope : Scope) (log : List Event) : State :=
  ⟨scope, .empty, none, false, [], log⟩

def logs (s : State) (events : List Event) : State := { s with log := s.log ++ events }

/-- Takes over the diagnostics of a reader. -/
def collect (s : State) (r : Reader) : State :=
  { s with
    invalidated := s.invalidated || r.invalidated
    diagnostics := s.diagnostics ++ r.diagnostics }

/-! ## Leaving scopes -/

/-- Leaves the innermost frame; the global scope cannot be left. -/
def pop (s : State) : State :=
  match s.scope.pop? with
  | some outer => { s with scope := outer }.logs [.popped outer.depth]
  | none => s.logs [.globalUnderflow]

def popTimes : (count : Nat) → State → State
  | 0, s => s
  | count + 1, s => popTimes count s.pop

/-- The number of temporary frames inside the innermost block. -/
def temporaries (s : State) : Nat := (s.scope.frames.takeWhile (·.temporary)).length

/-- Leaves all temporary frames inside the innermost block. -/
def popTemporaries (s : State) : State := s.popTimes s.temporaries

/-- Leaves the innermost frame if it is temporary. -/
def popTemporary (s : State) : State := s.popTimes (min 1 s.temporaries)

/-- Leaves the innermost frame, where there is one. -/
def popBlock (s : State) : State :=
  if s.scope.isGlobal then s.logs [.blockUnderflow] else s.pop

/-- The block of a loop or a function stays in the scope of its head. -/
def bodyFollows (previous : Keyword) (current : Option Keyword) : Bool :=
  current == some .blockOpen && (previous == .forEach || previous == .declare)

/-- Leaves the scopes that end between two statements. A closed block is left with all temporary
scopes in it. After the head of a body nothing ends. An `else` leaves the one scope of the body
before it, and none after a block. Any other statement ends all temporary scopes around the one
before. -/
def settle (previous current : Option Keyword) (s : State) : State :=
  match previous with
  | none => s
  | some k =>
    let s := if k.traits.closesBlock then s.popTemporaries.popBlock else s
    if k.traits.opens then s
    else if current = some .orElse then
      if k.traits.closesBlock then s else s.popTemporary
    else if bodyFollows k current then s
    else s.popTemporaries

/-! ## One statement -/

/-- The context in which an entry is generated. -/
def context (s : State) (previous next : Option Keyword) (e : Entry) : Context where
  scope := s.scope
  previous := previous
  next := next
  chain := e.chain
  declaresFunction := e.keyword == .blockOpen && s.pending.isSome

/-- The entry closes a block and none is open. -/
def isStray (s : State) (e : Entry) : Bool := e.keyword.traits.closesBlock && !s.scope.inBlock

/-- The reader of an entry, on which a stray end of a block is reported. -/
def entryReader (s : State) (e : Entry) : Reader :=
  if s.isStray e then e.reader.report (.strayClose e.keyword) .first else e.reader

/-- The log of a stray end of a block. -/
def strayLog (s : State) (e : Entry) : List Event :=
  if s.isStray e then
    .strayClose e.keyword :: (s.entryReader e).diagnostics.map .invalidated
  else []

/-- The keyword that owns the scope of a statement: a block belongs to the statement whose body it
is. -/
def ownerKeyword (k : Keyword) (previous : Option Keyword) (declaresFunction : Bool) : Keyword :=
  if k ≠ .blockOpen then k
  else if declaresFunction then .declare
  else
    match previous with
    | some .ifThen => .ifThen
    | some .orElse => .orElse
    | some .forEach => .forEach
    | some .whileLoop => .whileLoop
    | _ => .blockOpen

/-- A body that is a single statement gets a temporary scope: not a block, nor an `if` directly
after an `else`, nor a missing body. -/
def takesTemporary (k : Keyword) : (next : Option Keyword) → Bool
  | none => false
  | some .blockClose => false
  | some .blockOpen => false
  | some .ifThen => k != .orElse
  | some _ => true

/-- The owner of the scope that an entry opens. -/
def entryOwner (ctx : Context) (e : Entry) : Owner :=
  let head := e.partition.head
  ⟨ownerKeyword e.keyword ctx.previous ctx.declaresFunction, head.x, head.y⟩

/-- The sort of scope that an entry opens: temporary or not. -/
def opening? (ctx : Context) (k : Keyword) : Option Bool :=
  if k.traits.opensBlock then some false
  else if k.traits.opensTemporary && takesTemporary k ctx.next then some true
  else none

/-- The scope with the names that a statement binds, a waiting function included. -/
def bound (s : State) (ctx : Context) (g : Generated) : Scope :=
  let scope := s.scope.defineAll g.definitions
  match s.pending with
  | some p =>
    if ctx.declaresFunction then
      let (key, m) := p.resolve g.parameters
      scope.define key m
    else scope
  | none => scope

/-- The scope after a statement: its names are bound, and its own scope is opened. -/
def scopeAfter (s : State) (ctx : Context) (e : Entry) (g : Generated) : Scope :=
  let scope := s.bound ctx g
  match opening? ctx e.keyword with
  | some temporary =>
    let inner := scope.push (some (entryOwner ctx e)) temporary
    if temporary then inner else inner.defineAll g.parameters
  | none => scope

/-- The log of opening the scope of a statement. -/
def openLog (s : State) (ctx : Context) (e : Entry) : List Event :=
  match opening? ctx e.keyword with
  | some temporary => [.pushed temporary (s.scope.depth + 1)]
  | none => []

/-- The line of code of an entry. -/
def entryLine (s : State) (ctx : Context) (e : Entry) (g : Generated) (r : Reader) : Line where
  keyword := e.keyword
  previous := ctx.previous
  declaresFunction := ctx.declaresFunction
  depth := s.scope.depth
  invalid := r.invalidated
  code := g.code

/-- Evaluates an entry in a settled scope. -/
def evalEntry (previous next : Option Keyword) (e : Entry) (s : State) : State :=
  let ctx := s.context previous next e
  let r := s.entryReader e
  let (g, r') := e.keyword.generate ctx r
  let s' : State :=
    { s with
      scope := s.scopeAfter ctx e g
      layout := s.layout.emit (s.entryLine ctx e g r')
      pending := g.pending }
  (s'.collect r').logs
    (s.strayLog e ++ e.keyword.generateLog ctx r r' ++ s.openLog ctx e)

/-- Evaluates an entry between two others. -/
def step (previous next : Option Keyword) (e : Entry) (s : State) : State :=
  (s.settle previous (some e.keyword)).evalEntry previous next e

/-! ## The end -/

/-- The diagnostic of a block that is never closed. -/
def unclosed (f : Frame) : Diagnostic :=
  let (x, y) :=
    match f.owner with
    | some owner => (owner.x, owner.y)
    | none => (0, 0)
  ⟨.unclosedBlock x y, x, y, 0, some .blockOpen, none⟩

/-- Leaves a frame at the end of the program; a block should have been closed. -/
def closeFrame (s : State) (f : Frame) : State :=
  if f.temporary then s.pop
  else
    let d := unclosed f
    ({ s with invalidated := true, diagnostics := s.diagnostics ++ [d] }.logs
      [.unclosedBlock d.x d.y]).pop

/-- Leaves all frames at the end of the program. -/
def closeRemaining (s : State) : State := s.scope.frames.foldl closeFrame s

/-- Evaluates a queue of entries, the first of which comes after `previous`. -/
def run : (previous : Option Keyword) → List Entry → State → State
  | previous, [], s => (s.settle previous none).closeRemaining
  | previous, e :: rest, s =>
    run (some e.keyword) rest (s.step previous (rest.head?.map (·.keyword)) e)

end State

/-! ## Programs -/

structure Evaluation where
  code : String
  invalidated : Bool
  diagnostics : List Diagnostic
  log : List Event

namespace Language

/-- The state before the first entry of the queue: pixels outside all statements are reported. -/
def startState (l : Language) (parts : List Partition) : State :=
  let orphans := orphanReaders parts
  let s := orphans.foldl State.collect (.start l.globalScope l.globalLog)
  s.logs (s.diagnostics.map .invalidated ++ [.evaluating (enqueue parts).length])

/-- The state after the last entry of the queue. -/
def finalState (l : Language) (parts : List Partition) : State :=
  (l.startState parts).run none (enqueue parts)

/-- Evaluates the pixels of a program. -/
def evaluatePixels (l : Language) (pixels : List Pixel) : Evaluation :=
  let s := l.finalState (subdivide pixels)
  ⟨s.layout.finish, s.invalidated, s.diagnostics, s.log⟩

/-- Evaluates the program that an image shows. -/
def evaluate (l : Language) (img : Image) : Evaluation := l.evaluatePixels (l.pixels img)

end Language

/-! ## JSON -/

inductive Json
  | null
  | bool (value : Bool)
  | number (value : Nat)
  | string (value : String)
  | array (items : List Json)
  | object (fields : List (String × Json))

namespace Json

def ofOption : Option String → Json
  | some s => string s
  | none => null

end Json

def Diagnostic.toJson (d : Diagnostic) : Json :=
  .object
    [("kind", .string d.kind.name), ("x", .number d.x), ("y", .number d.y),
      ("token_index", .number d.tokenIndex), ("statement", .ofOption (d.keyword.map Keyword.key)),
      ("message", .string d.message), ("syntax", .ofOption (d.template.map Template.display))]

def Evaluation.toJson (e : Evaluation) : Json :=
  .object
    [("code", .string e.code), ("invalidated", .bool e.invalidated),
      ("diagnostics", .array (e.diagnostics.map Diagnostic.toJson))]

end PixelLang
