/-!
# Members

A `Member` is what a name is bound to. Functions and structs can be called; an `Overload` says
with how many arguments.
-/

set_option autoImplicit false

namespace PixelLang

structure Parameter where
  name : Option String
  /-- It takes any number of arguments. -/
  vararg : Bool
deriving DecidableEq

namespace Parameter

def named (name : String) : Parameter := ⟨some name, false⟩

def anonymous : Parameter := ⟨none, false⟩

end Parameter

structure Overload where
  parameters : List Parameter
deriving DecidableEq

namespace Overload

/-- The overload of `n` parameters. -/
def arity (n : Nat) : Overload := ⟨List.replicate n .anonymous⟩

/-- The overload of `fixed` parameters and any number of arguments after them. -/
def variadic (fixed : Nat) : Overload := ⟨List.replicate fixed .anonymous ++ [⟨none, true⟩]⟩

def isVariadic (o : Overload) : Bool := o.parameters.any (·.vararg)

/-- The number of parameters that take one argument each. -/
def fixedCount (o : Overload) : Nat := o.parameters.countP (!·.vararg)

/-- The overload takes this number of arguments. -/
def accepts (o : Overload) (count : Nat) : Bool :=
  if o.isVariadic then o.fixedCount ≤ count else count == o.parameters.length

def display (o : Overload) : String :=
  if o.isVariadic then toString o.fixedCount ++ "+" else toString o.parameters.length

end Overload

inductive Member
  | var (name : String)
  | const (name : String)
  | func (name : String) (overloads : List Overload) (library : Bool)
  | struct (name : String) (build : Overload)
deriving DecidableEq

namespace Member

/-- The name in generated code. -/
def name : Member → String
  | var name | const name | func name _ _ | struct name _ => name

/-- The sort of the member as messages quote it. -/
def describe : Member → String
  | var _ => "variable"
  | const _ => "constant"
  | func .. => "function"
  | struct .. => "struct"

def isFunction : Member → Bool
  | func .. => true
  | _ => false

def isStruct : Member → Bool
  | struct .. => true
  | _ => false

def overloads : Member → List Overload
  | func _ overloads _ => overloads
  | struct _ build => [build]
  | _ => []

/-- Some overload takes this number of arguments. -/
def accepts (m : Member) (count : Nat) : Bool := m.overloads.any (·.accepts count)

/-- The numbers of arguments the overloads take, as messages quote them. -/
def expected (m : Member) : String := String.intercalate ", " (m.overloads.map Overload.display)

end Member

end PixelLang
