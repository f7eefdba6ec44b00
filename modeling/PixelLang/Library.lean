import PixelLang.Event
import PixelLang.Scheme.Basic
import PixelLang.Scope

/-!
# Libraries

A `Library` offers functions under a name space of the scheme. A function is bound to every colour
of its key; without a colour it cannot be called.
-/

set_option autoImplicit false

namespace PixelLang

structure LibraryFunction where
  name : String
  /-- What a call of the function is in generated code. -/
  target : String
  overloads : List Overload
deriving DecidableEq

/-- The member a function is bound as. -/
def LibraryFunction.member (f : LibraryFunction) : Member := .func f.target f.overloads true

structure Library where
  name : String
  /-- The first part of the scheme keys of its functions. -/
  space : String
  functions : List LibraryFunction
  /-- Colours of its own, by function name. -/
  colours : Scheme

namespace Library

/-- The library that every language has. -/
def standard : Library where
  name := "standard"
  space := "stdlib"
  functions :=
    [⟨"listOf", "listOf", [.variadic 0]⟩, ⟨"sqrt", "sqrt", [.arity 1]⟩,
      ⟨"random", "Math.random", [.arity 0]⟩, ⟨"readLine", "readLine", [.arity 0]⟩,
      ⟨"size", "count", [.arity 1]⟩]
  colours := .empty

/-- The scheme key of a function. -/
def key (l : Library) (name : String) : String := l.space ++ "." ++ name

/-- The colours of the library under their scheme keys. -/
def keyedColours (l : Library) : Scheme :=
  l.colours.entries.foldl (fun s entry => s.set (l.key entry.1) entry.2) .empty

/-- Adds the colours of the library whose keys the scheme does not have. -/
def paint (l : Library) (scheme : Scheme) : Scheme := scheme.fill l.keyedColours

/-- Binds a function to each of its colours. -/
def bindFunction (l : Library) (scheme : Scheme) (b : Bindings) (f : LibraryFunction) : Bindings :=
  match scheme.get? (l.key f.name) with
  | some swatch => swatch.hexes.foldl (fun b hex => b.insert hex f.member) b
  | none => b

/-- Binds the functions of the library. -/
def bind (l : Library) (scheme : Scheme) (b : Bindings) : Bindings :=
  l.functions.foldl (l.bindFunction scheme) b

/-- The function has an entry in the scheme. -/
def isColoured (l : Library) (scheme : Scheme) (f : LibraryFunction) : Bool :=
  (scheme.get? (l.key f.name)).isSome

/-- The number of functions that are bound. -/
def boundCount (l : Library) (scheme : Scheme) : Nat := l.functions.countP (l.isColoured scheme)

/-- The log of binding the functions. -/
def bindLog (l : Library) (scheme : Scheme) : List Event :=
  (l.functions.filter (!l.isColoured scheme ·)).map fun f => .uncoloured l.name f.name

end Library

end PixelLang
