import PixelLang.Operator
import PixelLang.Text

/-!
# Expressions

An `Expression` is what the pixels after a keyword spell. `code` writes it as generated code;
string literals are written with escapes, so that their text survives.
-/

set_option autoImplicit false

namespace PixelLang

/-- A part of a string: text, or the code of a name that is put in its place. -/
inductive StringPart
  | literal (text : String)
  | reference (code : String)
deriving DecidableEq

mutual

inductive Expression
  | string (parts : List StringPart)
  | number (digits : String)
  | boolean (value : Bool)
  /-- A name, called where there are arguments. -/
  | call (callee : String) (arguments : Option (List Expression))
  | construct (name : String) (arguments : List Expression)
  | compound (parts : List CompoundPart)
  | empty

/-- A part of a compound expression. -/
inductive CompoundPart
  | operand (e : Expression)
  | operator (op : Operator)

end

/-- The forms an expression can have. -/
inductive Shape
  | string
  | number
  | boolean
  | call
  | construct
  | compound
  | empty
deriving DecidableEq

instance : Inhabited Expression := ⟨.empty⟩

namespace Expression

def shape : Expression → Shape
  | string _ => .string
  | number _ => .number
  | boolean _ => .boolean
  | call .. => .call
  | construct .. => .construct
  | compound _ => .compound
  | empty => .empty

def isEmpty (e : Expression) : Bool := e.shape == .empty

/-! ## Generated code -/

/-- The control characters. -/
def isControl (c : Char) : Bool := c.toNat < 0x20 || (0x7F ≤ c.toNat && c.toNat ≤ 0x9F)

/-- A character as it stands in a string literal. -/
def escape (c : Char) : List Char :=
  if c = '"' then ['\\', '"']
  else if c = '\\' then ['\\', '\\']
  else if c = '$' then ['\\', '$']
  else if c = '\n' then ['\\', 'n']
  else if c = '\r' then ['\\', 'r']
  else if c = '\t' then ['\\', 't']
  else if isControl c then '\\' :: 'u' :: Text.Hex.padded 4 c.toNat
  else [c]

/-- A part of a string as it stands in a string literal. -/
def partCode : StringPart → List Char
  | .literal text => text.toList.flatMap escape
  | .reference code => '$' :: '\x7b' :: code.toList ++ ['\x7d']

def stringCode (parts : List StringPart) : String :=
  String.ofList ('"' :: parts.flatMap partCode ++ ['"'])

def booleanCode (value : Bool) : String := if value then "true" else "false"

/-- A name with arguments in brackets. -/
def applied (name : String) (arguments : List String) : String :=
  name ++ "(" ++ String.intercalate ", " arguments ++ ")"

mutual

/-- The code of an expression. -/
def code : Expression → String
  | string parts => stringCode parts
  | number digits => digits
  | boolean value => booleanCode value
  | call callee none => callee
  | call callee (some arguments) => applied callee (codes arguments)
  | construct name arguments => applied name (codes arguments)
  | compound parts => String.intercalate " " ((partCodes parts).filter (!·.isEmpty))
  | empty => ""

/-- The codes of expressions. -/
def codes : List Expression → List String
  | [] => []
  | e :: rest => code e :: codes rest

/-- The codes of operands and the symbols of operators. -/
def partCodes : List CompoundPart → List String
  | [] => []
  | .operand e :: rest => code e :: partCodes rest
  | .operator op :: rest => op.symbol :: partCodes rest

end

end Expression

end PixelLang
