import PixelLang.Event
import PixelLang.Expression.Read
import PixelLang.Statement.Basic

/-!
# Generation

`Keyword.generate` reads the pixels of a statement and gives its code and the names it binds. What
is wrong is recorded on the reader.
-/

set_option autoImplicit false

namespace PixelLang

/-- How a statement is generated from the pixels after its keyword. -/
abbrev Generator := Context → Reader → Generated × Reader

/-! ## Variables and functions -/

/-- The head of a function; its block comes next. -/
def declareFunction (existing : Option Member) (name : Pixel) (start : Nat) (r : Reader) :
    Generated × Reader :=
  let r :=
    match existing with
    | some m => r.report (.alreadyDefined name m) (.index start)
    | none => r
  let r :=
    if r.hasNext then
      (r.reportIn (Keyword.declare.template.failedAt 2) .valueOfFunction (.index r.index)).skipToEnd
    else r
  let pending := if existing.isNone then some ⟨name.hex, name.identifier⟩ else none
  ({ code := "fun " ++ name.identifier, pending }, r)

/-- A new variable, or an assignment to one. -/
def declareVariable (scope : Scope) (existing : Option Member) (name : Pixel) (start : Nat)
    (r : Reader) : Generated × Reader :=
  let (value, r) := r.eval scope
  let r :=
    if value.isEmpty then
      r.reportIn (Keyword.declare.template.failedAt 2) (.missingValue name) .cursor
    else r
  match existing with
  | none =>
    ({ code := "var " ++ name.identifier ++ " = " ++ value.code
       definitions := [(name.hex, .var name.identifier)] }, r)
  | some (.var bound) => ({ code := bound ++ " = " ++ value.code }, r)
  | some m => ({}, r.report (.notAssignable m name) (.index start))

def generateDeclare : Generator := fun ctx r =>
  match r.readName .declare 1 with
  | (none, r') => ({}, r')
  | (some name, r') =>
    let existing := ctx.scope.get? name.hex
    if ctx.next = some .blockOpen then declareFunction existing name r.index r'
    else declareVariable ctx.scope existing name r.index r'

/-! ## Calls -/

/-- The expression is a name that is not called. -/
def Expression.isPlainName : Expression → Bool
  | call _ none => true
  | _ => false

def generateCall : Generator := fun ctx r =>
  match r.remaining with
  | [] => ({}, r.reportIn (Keyword.call.template.failedAt 1) .missingFunction .cursor)
  | callee :: _ =>
    let (e, r') := r.evalAs ctx.scope .call
    let r' :=
      if e.isPlainName && r'.diagnostics.length == r.diagnostics.length then
        r'.report (.notFunction callee) (.index r.index)
      else r'
    ({ code := e.code }, r')

def generatePrint : Generator := fun ctx r =>
  let (value, r) := r.eval ctx.scope
  ({ code := "println(" ++ value.code ++ ")" }, r)

/-! ## Conditions and loops -/

def generateIf : Generator := fun ctx r =>
  let (condition, r) := r.eval ctx.scope
  let r :=
    if condition.isEmpty then
      r.reportIn (Keyword.ifThen.template.failedAt 1) .missingCondition .cursor
    else r
  ({ code := "if (" ++ condition.code ++ ")" }, r.requireBody .ifThen ctx.next)

def generateElse : Generator := fun ctx r =>
  ({ code := "else" }, (r.rejectTrailing .orElse).requireBody .orElse ctx.next)

def generateForEach : Generator := fun ctx r =>
  let (collection, r) := r.eval ctx.scope
  let r :=
    if collection.isEmpty then
      r.reportIn (Keyword.forEach.template.failedAt 1) .missingCollection .cursor
    else r
  let r := if ctx.next = some .blockOpen then r else r.report .noLoopBlock .first
  ({ code := collection.code ++ ".forEach" }, r)

def generateWhile : Generator := fun ctx r =>
  let (condition, r) := r.eval ctx.scope
  let test := if condition.isEmpty then "true" else condition.code
  ({ code := "while (" ++ test ++ ")" }, r.requireBody .whileLoop ctx.next)

/-! ## Leaving functions and loops -/

def generateReturn : Generator := fun ctx r =>
  let (value, r) := r.eval ctx.scope
  let r :=
    if (ctx.scope.enclosing? (· == .declare)).isNone then r.report .returnOutsideFunction .first
    else r
  ({ code := if value.isEmpty then "return" else "return " ++ value.code }, r)

def generateBreak : Generator := fun ctx r =>
  let r := r.rejectTrailing .ret
  let r :=
    if (ctx.scope.enclosing? fun k => k == .forEach || k == .whileLoop).isNone then
      r.report .breakOutsideLoop .first
    else r
  ({ code := "break" }, r)

/-- One keyword returns, two leave a loop. -/
def generateLeave : Generator := fun ctx r =>
  match ctx.chain with
  | 1 => generateReturn ctx r
  | 2 => generateBreak ctx r
  | times => ({}, (r.report (.repeatedReturn times) .first).skipToEnd)

/-! ## Blocks -/

/-- Names as parameters of a generated function or fields of a generated class. -/
def typedNames (lead : String) (names : List Pixel) : String :=
  String.intercalate ", " (names.map fun p => lead ++ p.identifier ++ ": Any?")

/-- The text that opens a block. -/
def openingCode (ctx : Context) (names : List Pixel) : String :=
  if ctx.declaresFunction then "(" ++ typedNames "" names ++ "): Any? \x7b"
  else if ctx.previous = some .forEach ∧ !names.isEmpty then
    "\x7b " ++ String.intercalate ", " (names.map Pixel.identifier) ++ " ->"
  else "\x7b"

def generateOpen : Generator := fun ctx r =>
  let (names, r) := r.readNames .blockOpen 1
  let r :=
    if ctx.declaresFunction || ctx.previous == some .forEach || names.isEmpty then r
    else r.report .strayParameters (.index 1)
  ({ code := openingCode ctx names
     parameters := names.map fun p => (p.hex, .const p.identifier) }, r)

def generateClose : Generator := fun _ r => ({ code := "\x7d" }, r.rejectTrailing .blockClose)

/-! ## Structs -/

def generateStruct : Generator := fun ctx r =>
  match r.readName .struct 1 with
  | (none, r') => ({}, r')
  | (some name, r') =>
    let r' :=
      match ctx.scope.get? name.hex with
      | some m => r'.report (.alreadyDefined name m) (.index r.index)
      | none => r'
    let (fields, r') := r'.readNames .struct 2
    let code :=
      if fields.isEmpty then "class " ++ name.identifier
      else "class " ++ name.identifier ++ "(" ++ typedNames "var " fields ++ ")"
    let build : Overload := ⟨fields.map fun p => .named p.identifier⟩
    ({ code, definitions := [(name.hex, .struct name.identifier build)] }, r')

/-! ## All statements -/

/-- Generates the statement after its keyword. -/
def Keyword.generator : Keyword → Generator
  | declare => generateDeclare
  | call => generateCall
  | ifThen => generateIf
  | orElse => generateElse
  | forEach => generateForEach
  | whileLoop => generateWhile
  | ret => generateLeave
  | blockOpen => generateOpen
  | blockClose => generateClose
  | print => generatePrint
  | struct => generateStruct

/-- Generates a statement from all its pixels, the first of which is its keyword. -/
def Keyword.generate (k : Keyword) (ctx : Context) (r : Reader) : Generated × Reader :=
  k.generator ctx r.next.2

/-- The log of generating a statement, where `after` is the reader that generation leaves. -/
def Keyword.generateLog (k : Keyword) (ctx : Context) (r after : Reader) : List Event :=
  .generating k r.next.2.remaining.length ctx.chain ::
    (after.diagnostics.drop r.diagnostics.length).map .invalidated

end PixelLang
