/-!
# Operators

The dot joins the members of a name; the other operators join the operands of an expression.
-/

set_option autoImplicit false

namespace PixelLang

inductive Operator
  | dot
  | plus
  | minus
  | times
  | divide
  | modulo
  | equality
  | inequality
  | greater
  | greaterOrEqual
  | less
  | lessOrEqual
  | and
  | or
deriving DecidableEq

namespace Operator

/-- The operators that join operands, in the order in which a colour is tried against them. -/
def joining : List Operator :=
  [plus, minus, times, divide, modulo, equality, inequality, greater, greaterOrEqual, less,
    lessOrEqual, and, or]

/-- All operators, the dot first. -/
def all : List Operator := dot :: joining

/-- The scheme key of an operator. -/
def key : Operator → String
  | dot => "op.dot"
  | plus => "op.plus"
  | minus => "op.minus"
  | times => "op.times"
  | divide => "op.divide"
  | modulo => "op.modulo"
  | equality => "op.equality"
  | inequality => "op.inequality"
  | greater => "op.greater"
  | greaterOrEqual => "op.greater_or_equal"
  | less => "op.less"
  | lessOrEqual => "op.less_or_equal"
  | and => "op.and"
  | or => "op.or"

/-- The symbol an operator has in generated code. -/
def symbol : Operator → String
  | dot => "."
  | plus => "+"
  | minus => "-"
  | times => "*"
  | divide => "/"
  | modulo => "%"
  | equality => "=="
  | inequality => "!="
  | greater => ">"
  | greaterOrEqual => ">="
  | less => "<"
  | lessOrEqual => "<="
  | and => "&&"
  | or => "||"

def isDot (op : Operator) : Bool := op == dot

end Operator

end PixelLang
