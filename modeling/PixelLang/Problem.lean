import PixelLang.Member
import PixelLang.Pixel

/-!
# Problems

A `Problem` is what a diagnostic reports. It carries its cause; `kind` sorts the causes and
`message` words them.
-/

set_option autoImplicit false

namespace PixelLang

inductive ProblemKind
  | unresolvedReference
  | arityMismatch
  | kindMismatch
  | missingToken
  | unexpectedToken
  | structural
deriving DecidableEq

namespace ProblemKind

def all : List ProblemKind :=
  [unresolvedReference, arityMismatch, kindMismatch, missingToken, unexpectedToken, structural]

def name : ProblemKind → String
  | unresolvedReference => "unresolved-reference"
  | arityMismatch => "arity-mismatch"
  | kindMismatch => "kind-mismatch"
  | missingToken => "missing-token"
  | unexpectedToken => "unexpected-token"
  | structural => "structural"

def code (k : ProblemKind) : String := "pxl::" ++ k.name

end ProblemKind

inductive Problem
  /-- A dotted name ends with a dot. -/
  | missingMember
  /-- A pixel is left over after an expression. -/
  | leftOver (p : Pixel)
  | notInNumber (p : Pixel)
  | notBoolean (p : Pixel)
  | unresolved (p : Pixel)
  | notFunction (p : Pixel)
  | notStruct (p : Pixel)
  | missingOperand (op : Operator)
  | wrongArity (m : Member) (name : String) (found : Nat)
  | missingName (k : Keyword)
  | notName (p : Pixel)
  | repeatedName (p : Pixel)
  /-- A pixel is left over after a statement. -/
  | trailing (p : Pixel) (k : Keyword)
  | noBody (k : Keyword)
  | alreadyDefined (p : Pixel) (m : Member)
  | valueOfFunction
  | missingValue (p : Pixel)
  | notAssignable (m : Member) (p : Pixel)
  | missingFunction
  | missingCondition
  | missingCollection
  | noLoopBlock
  | returnOutsideFunction
  | breakOutsideLoop
  | repeatedReturn (times : Nat)
  | strayParameters
  /-- Pixels stand before the first keyword. -/
  | orphans (count : Nat)
  | strayClose (k : Keyword)
  | unclosedBlock (x y : Nat)
  /-- A problem that a caller words itself. -/
  | other (kind : ProblemKind) (message : String)
deriving DecidableEq

namespace Problem

def kind : Problem → ProblemKind
  | missingMember | missingOperand _ | missingName _ | noBody _ | missingValue _
  | missingFunction | missingCondition | missingCollection | noLoopBlock => .missingToken
  | leftOver _ | trailing .. | valueOfFunction | repeatedReturn _ | orphans _ => .unexpectedToken
  | notInNumber _ | notBoolean _ | notFunction _ | notStruct _ | notName _ | repeatedName _
  | alreadyDefined .. | notAssignable .. | strayParameters => .kindMismatch
  | unresolved _ => .unresolvedReference
  | wrongArity .. => .arityMismatch
  | returnOutsideFunction | breakOutsideLoop | strayClose _ | unclosedBlock .. => .structural
  | other kind _ => kind

def message : Problem → String
  | missingMember => "Expected a member after the dot operator"
  | leftOver p => "Unexpected " ++ p.display ++ " in expression"
  | notInNumber p => p.display ++ " is not part of a number"
  | notBoolean p => p.display ++ " is not a boolean"
  | unresolved p => "Unresolved reference " ++ p.display
  | notFunction p => p.display ++ " is not a valid function"
  | notStruct p => p.display ++ " is not a struct"
  | missingOperand op => "Operator " ++ op.symbol ++ " has no right operand"
  | wrongArity m name found =>
    (if m.isStruct then "Struct " else "Function ") ++ name ++ " called with " ++
      toString found ++ " argument(s), expected " ++ m.expected
  | missingName k => k.key ++ " requires a name"
  | notName p => p.display ++ " cannot be used as a name"
  | repeatedName p => p.display ++ " is declared twice"
  | trailing p k => "Unexpected " ++ p.display ++ " after " ++ k.key
  | noBody k => k.key ++ " has no body"
  | alreadyDefined p m => p.display ++ " is already defined as a " ++ m.describe
  | valueOfFunction => "A function declaration takes no value"
  | missingValue p => p.display ++ " needs a value"
  | notAssignable m p => "Cannot assign to " ++ m.describe ++ " " ++ p.display
  | missingFunction => "function.call requires a function"
  | missingCondition => "if requires a condition"
  | missingCollection => "foreach requires a collection"
  | noLoopBlock => "foreach must be followed by a block"
  | returnOutsideFunction => "return outside of a function"
  | breakOutsideLoop => "break outside of a loop"
  | repeatedReturn times =>
    "return repeated " ++ toString times ++
      " times; use it once to return or twice to break"
  | strayParameters =>
    "Block parameters are only allowed after a function declaration or foreach"
  | orphans count =>
    toString count ++ " pixel(s) before the first statement are not part of any statement"
  | strayClose k => k.key ++ " has no open block to close"
  | unclosedBlock x y => "Block opened at " ++ Pixel.placeText x y ++ " is never closed"
  | other _ message => message

end Problem

end PixelLang
