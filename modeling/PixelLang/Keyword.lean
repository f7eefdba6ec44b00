/-!
# Keywords

Every statement starts with a keyword pixel. A `Keyword` fixes the scheme key of that pixel, the
tokens the statement is written with and its `Traits`: how it opens and closes scopes, whether it
may be repeated, and where blank lines stand around its code.
-/

set_option autoImplicit false

namespace PixelLang

/-- Where a statement asks for a blank line. -/
inductive Spacing
  | before
  | after
  | both
  | none
deriving DecidableEq

namespace Spacing

def isBefore : Spacing → Bool
  | before | both => true
  | _ => false

def isAfter : Spacing → Bool
  | after | both => true
  | _ => false

end Spacing

/-- What a keyword does to the scopes and the layout around it. -/
structure Traits where
  /-- It opens a block, which a closing keyword ends. -/
  opensBlock : Bool := false
  /-- It opens a temporary scope for a body that is a single statement. -/
  opensTemporary : Bool := false
  /-- It closes the innermost block. -/
  closesBlock : Bool := false
  /-- Repeating the bare keyword is one statement. -/
  chains : Bool := false
  spacing : Spacing := .none
deriving DecidableEq

/-- It opens a scope of either sort. -/
def Traits.opens (t : Traits) : Bool := t.opensBlock || t.opensTemporary

inductive Keyword
  /-- Declares a variable or a function, or assigns to a variable. -/
  | declare
  /-- Calls a function. -/
  | call
  | ifThen
  | orElse
  | forEach
  | whileLoop
  /-- Returns from a function; repeated, it leaves a loop. -/
  | ret
  | blockOpen
  | blockClose
  | print
  | struct
deriving DecidableEq

namespace Keyword

/-- All keywords, in the order in which a colour is tried against them. -/
def all : List Keyword :=
  [declare, call, ifThen, orElse, forEach, whileLoop, ret, blockOpen, blockClose, print, struct]

/-- The scheme key of a keyword, which is also how it is displayed. -/
def key : Keyword → String
  | declare => "variable.set"
  | call => "function.call"
  | ifThen => "if"
  | orElse => "else"
  | forEach => "foreach"
  | whileLoop => "while"
  | ret => "return"
  | blockOpen => "lambda.open"
  | blockClose => "lambda.close"
  | print => "print"
  | struct => "struct"

/-- The plain name of a keyword. -/
def name : Keyword → String
  | declare => "declare"
  | call => "call"
  | ifThen => "if"
  | orElse => "else"
  | forEach => "for-each"
  | whileLoop => "while"
  | ret => "return"
  | blockOpen => "block-open"
  | blockClose => "block-close"
  | print => "print"
  | struct => "struct"

def traits : Keyword → Traits
  | ifThen | whileLoop => { opensTemporary := true, spacing := .before }
  | orElse => { opensTemporary := true }
  | forEach => { spacing := .before }
  | ret => { chains := true }
  | blockOpen => { opensBlock := true }
  | blockClose => { closesBlock := true, spacing := .after }
  | struct => { spacing := .both }
  | declare | call | print => {}

/-- The tokens of the statement: its key and a placeholder for each part. -/
def tokens : Keyword → List String
  | declare => ["variable.set", "<name>", "<value>"]
  | call => ["function.call", "<function>", "<arguments...>"]
  | ifThen => ["if", "<condition>"]
  | orElse => ["else"]
  | forEach => ["foreach", "<collection>"]
  | whileLoop => ["while", "<?condition>"]
  | ret => ["return", "<?value>"]
  | blockOpen => ["lambda.open", "<?parameters...>"]
  | blockClose => ["lambda.close"]
  | print => ["print", "<?value>"]
  | struct => ["struct", "<name>", "<?members...>"]

/-- The keyword of a scheme key. -/
def ofKey? (key : String) : Option Keyword := all.find? (·.key == key)

end Keyword

end PixelLang
