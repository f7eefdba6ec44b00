import PixelLang.Expression.Basic
import PixelLang.Reader.Basic
import PixelLang.Scope

/-!
# Reading expressions

`analyze` tells from the remaining pixels which shape an expression has, and `evalAs` reads them
in a shape. Reading always goes on to the end: what does not fit is reported and skipped.

The operands of a compound expression and the arguments of a call are read from slices. An
argument of a call can hold operators, an operand holds none, and an argument of an operand takes
no arguments, so slices nest no deeper than `sliceDepth`.
-/

set_option autoImplicit false

namespace PixelLang

/-! ## Names -/

/-- The member that a name pixel is bound to. -/
def Scope.member? (scope : Scope) (p : Pixel) : Option Member :=
  if p.isSymbol || p.isLibrary then scope.get? p.hex else none

/-- The code of a pixel that can start a name: a boolean, or a bound name. -/
def Scope.nameOf? (scope : Scope) (p : Pixel) : Option String :=
  match p.boolean? with
  | some value => some (Expression.booleanCode value)
  | none => (scope.member? p).map Member.name

/-- The code of the first pixel of a name. -/
def Scope.firstCode (scope : Scope) (p : Pixel) : String :=
  (scope.nameOf? p).getD p.identifier

/-- The code of a later pixel of a dotted name: only library symbols go by their bound name. -/
def Scope.memberCode (scope : Scope) (p : Pixel) : String :=
  match scope.member? p with
  | some m => if p.isLibrary then m.name else p.identifier
  | none => p.identifier

/-- The code of a dotted name. -/
def Scope.sequenceCode (scope : Scope) (s : Sequence) : String :=
  String.intercalate "." (scope.firstCode s.first :: s.members.map scope.memberCode)

/-! ## Analysis -/

/-- Character codes that spell a number: digits, with or without a minus sign in front. -/
def spellNumber : List UInt8 → Bool
  | [] => false
  | code :: rest =>
    if code = 45 then !rest.isEmpty && rest.all Pixel.isDigitCode
    else (code :: rest).all Pixel.isDigitCode

/-- All pixels are characters, and these spell a number. -/
def isNumber (pixels : List Pixel) : Bool :=
  pixels.all Pixel.isCharacter && spellNumber (pixels.filterMap Pixel.character?)

/-- The shape of the expression that some pixels spell. -/
def shapeOf (scope : Scope) : List Pixel → Shape
  | [] => .empty
  | first :: rest =>
    let pixels := first :: rest
    if pixels.any Pixel.isOperator then .compound
    else if (scope.member? first).any Member.isStruct then .construct
    else if isNumber pixels then .number
    else if pixels.any fun p => p.isCharacter && !p.isDigit then .string
    else if rest.isEmpty && first.isBoolean then .boolean
    else if first.isCharacter then .string
    else .call

/-- The shape of the expression that the remaining pixels spell. -/
def Reader.analyze (scope : Scope) (r : Reader) : Shape := shapeOf scope r.remaining

/-! ## Literals -/

/-- The Latin-1 character of a code. -/
def charOf (code : UInt8) : Char := Char.ofNat code.toNat

/-- The parts of a string with the pending text added. -/
def flushText (parts : List StringPart) (text : List Char) : List StringPart :=
  if text.isEmpty then parts else parts ++ [.literal (String.ofList text)]

/-- Reports a pixel that starts no name. -/
def Reader.checkResolves (scope : Scope) (r : Reader) (p : Pixel) (position : Nat) :
    Bool × Reader :=
  match scope.nameOf? p with
  | some _ => (true, r)
  | none => (false, r.report (.unresolved p) (.index position))

/-- Reads the parts of a string; `text` is the text that no part holds yet. The character of code
zero ends a part and is no text. Each step reads a pixel, so `fuel` need not exceed their number. -/
def Reader.stringParts (scope : Scope) :
    (fuel : Nat) → List StringPart → (text : List Char) → Reader → List StringPart × Reader
  | 0, parts, text, r => (flushText parts text, r)
  | fuel + 1, parts, text, r =>
    match r.peek with
    | none => (flushText parts text, r)
    | some p =>
      match p.character? with
      | some code =>
        if code = 0 then stringParts scope fuel (flushText parts text) [] (r.advance 1)
        else stringParts scope fuel parts (text ++ [charOf code]) (r.advance 1)
      | none =>
        let parts := flushText parts text
        match r.nextSequence with
        | (none, r') => (parts, r')
        | (some sequence, r') =>
          match r'.checkResolves scope sequence.first r.index with
          | (true, r'') =>
            stringParts scope fuel (parts ++ [.reference (scope.sequenceCode sequence)]) [] r''
          | (false, r'') => stringParts scope fuel parts [] r''

def Reader.readString (scope : Scope) (r : Reader) : Expression × Reader :=
  let (parts, r) := r.stringParts scope r.remaining.length [] []
  (.string parts, r)

/-- Reads one pixel of a number. -/
def Reader.numberStep (acc : List Char × Reader) (p : Pixel) : List Char × Reader :=
  let r := acc.2.advance 1
  match p.character? with
  | some code => (acc.1 ++ [charOf code], r)
  | none => (acc.1, r.report (.notInNumber p) .cursor)

def Reader.readNumber (r : Reader) : Expression × Reader :=
  let (digits, r) := r.remaining.foldl numberStep ([], r)
  (.number (String.ofList digits), r)

def Reader.readBoolean (r : Reader) : Expression × Reader :=
  match r.next with
  | (none, r) => (.empty, r)
  | (some p, r) =>
    match p.boolean? with
    | some value => (.boolean value, r)
    | none => (.empty, r.report (.notBoolean p) .cursor)

/-! ## Arguments -/

/-- The number of pixels of the argument at the front of a list: a run of characters, a boolean or
a dotted name. It is zero where no argument can start. -/
def argumentLength : List Pixel → Nat
  | [] => 0
  | p :: rest =>
    if p.isCharacter then 1 + (rest.takeWhile Pixel.isCharacter).length
    else if p.isBoolean then 1
    else if p.isOperator || p.isDot || p.isKeyword then 0
    else 1 + (dottedTail rest).length

/-- How a slice inside an expression is read. -/
abbrev SliceReader := Reader → Expression × Reader

/-- Reads a slice and takes over its diagnostics. -/
def Reader.readSlice (nested : SliceReader) (r : Reader) (start stop : Nat) : Expression × Reader :=
  let (e, s) := nested (r.slice start stop)
  (e, r.absorb s)

/-- Reads arguments as long as one can start. Each is at least a pixel long, so `fuel` need not
exceed the number of pixels. -/
def Reader.readArguments (nested : SliceReader) : (fuel : Nat) → Reader → List Expression × Reader
  | 0, r => ([], r)
  | fuel + 1, r =>
    let count := argumentLength r.remaining
    if count = 0 then ([], r)
    else
      let (e, r) := (r.advance count).readSlice nested r.index (r.index + count)
      if e.isEmpty then ([], r)
      else
        let (es, r) := readArguments nested fuel r
        (e :: es, r)

/-- Reports a number of arguments that the member does not take. -/
def Reader.checkArity (r : Reader) (m : Member) (name : String) (found start : Nat) : Reader :=
  if m.accepts found then r else r.report (.wrongArity m name found) (.index start)

/-- Reads the arguments of a member that was named at `start`. -/
def Reader.readApplied (nested : SliceReader) (r : Reader) (m : Member) (name : String)
    (start : Nat) : List Expression × Reader :=
  let (arguments, r) := r.readArguments nested r.remaining.length
  (arguments, r.checkArity m name arguments.length start)

/-! ## Calls and structs -/

/-- The member that a dotted name calls: the function of its last pixel, or the struct of its only
pixel. -/
def Scope.callable? (scope : Scope) (s : Sequence) : Option Member :=
  (scope.member? s.last).filter fun m => m.isFunction || (m.isStruct && !s.isNested)

/-- Reads the rest of a call after its name. -/
def Reader.readCallOf (scope : Scope) (nested : SliceReader) (r : Reader) (s : Sequence)
    (start : Nat) : Expression × Reader :=
  let callee := scope.sequenceCode s
  match scope.callable? s with
  | some m =>
    let (arguments, r) := r.readApplied nested m callee start
    (.call callee (some arguments), r)
  | none =>
    if r.hasNext then
      (.call callee none, (r.report (.notFunction s.last) (.index (r.index - 1))).skipToEnd)
    else (.call callee none, r)

def Reader.readCall (scope : Scope) (nested : SliceReader) (r : Reader) : Expression × Reader :=
  match r.nextSequence with
  | (none, r') => (.empty, r')
  | (some s, r') =>
    match r'.checkResolves scope s.first r.index with
    | (true, r'') => r''.readCallOf scope nested s r.index
    | (false, r'') => (.call s.first.identifier none, r''.skipToEnd)

def Reader.readConstruct (scope : Scope) (nested : SliceReader) (r : Reader) :
    Expression × Reader :=
  match r.next with
  | (none, r') => (.empty, r')
  | (some p, r') =>
    let name := scope.firstCode p
    match (scope.member? p).filter Member.isStruct with
    | some m =>
      let (arguments, r') := r'.readApplied nested m name r.index
      (.construct name arguments, r')
    | none => (.construct name [], (r'.report (.notStruct p) (.index r.index)).skipToEnd)

/-! ## Compound expressions -/

/-- The pixels before the first operator and, for each operator, the pixels up to the next. -/
def splitOperators : List Pixel → List Pixel × List (Operator × List Pixel)
  | [] => ([], [])
  | p :: rest =>
    let (segment, more) := splitOperators rest
    match p.operator? with
    | some op => ([], (op, segment) :: more)
    | none => (p :: segment, more)

/-- Reads the operand of `length` pixels at `start` and the operands after it. The last of them
must not be empty where an operator stands before it. -/
def Reader.readOperands (nested : SliceReader) :
    List (Operator × List Pixel) → (before : Option Operator) → (start length : Nat) → Reader →
      List CompoundPart × Reader
  | [], before, start, length, r =>
    let (e, r) := r.readSlice nested start (start + length)
    match before with
    | some op =>
      if e.isEmpty then
        ([.operand e], r.report (.missingOperand op) (.index (start - 1)))
      else ([.operand e], r)
    | none => ([.operand e], r)
  | (op, segment) :: more, _, start, length, r =>
    let (e, r) := r.readSlice nested start (start + length)
    let (parts, r) := readOperands nested more (some op) (start + length + 1) segment.length r
    (.operand e :: .operator op :: parts, r)

def Reader.readCompound (nested : SliceReader) (r : Reader) : Expression × Reader :=
  let (segment, more) := splitOperators r.remaining
  let (parts, r) := r.readOperands nested more none r.index segment.length
  (.compound parts, r.skipToEnd)

/-! ## Evaluation -/

/-- Reads an expression of a shape, without looking at what is left over. -/
def Reader.readShape (scope : Scope) (nested : SliceReader) (shape : Shape) (r : Reader) :
    Expression × Reader :=
  match shape with
  | .string => r.readString scope
  | .number => r.readNumber
  | .boolean => r.readBoolean
  | .call => r.readCall scope nested
  | .construct => r.readConstruct scope nested
  | .compound => r.readCompound nested
  | .empty => (.empty, r)

/-- Reports a pixel that is left over, and skips to the end. -/
def Reader.finish (r : Reader) : Reader :=
  match r.peek with
  | some p => (r.report (.leftOver p) (.index r.index)).skipToEnd
  | none => r

/-- Reads all remaining pixels as an expression of a shape. -/
def Reader.readWith (scope : Scope) (nested : SliceReader) (shape : Shape) (r : Reader) :
    Expression × Reader :=
  let (e, r) := r.readShape scope nested shape
  (e, r.finish)

/-- Reads a slice whose own slices nest at most `depth - 1` deep. -/
def Reader.evalSlice (scope : Scope) : (depth : Nat) → SliceReader
  | 0, r => (.empty, r)
  | depth + 1, r => r.readWith scope (evalSlice scope depth) (r.analyze scope)

/-- An argument, an operand in it and an argument of that operand. -/
def sliceDepth : Nat := 3

/-- Reads all remaining pixels as an expression of a given shape. -/
def Reader.evalAs (scope : Scope) (shape : Shape) (r : Reader) : Expression × Reader :=
  r.readWith scope (evalSlice scope sliceDepth) shape

/-- Reads all remaining pixels as an expression. -/
def Reader.eval (scope : Scope) (r : Reader) : Expression × Reader :=
  r.evalAs scope (r.analyze scope)

end PixelLang
