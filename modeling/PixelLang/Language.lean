import PixelLang.Image
import PixelLang.Library
import PixelLang.Catalog
import PixelLang.Scheme.Basic

/-!
# Languages

A `Language` is a scheme, a catalog of keywords and libraries. It turns images into pixels and
gives the global scope in which a program starts.
-/

set_option autoImplicit false

namespace PixelLang

structure Language where
  scheme : Scheme
  catalog : Catalog
  libraries : List Library

namespace Language

/-- The language of a scheme and libraries. The standard scheme and the standard library are
always part of it; a key keeps the first swatch it is given. -/
def build (scheme : Scheme) (catalog : Catalog) (libraries : List Library) : Language :=
  let libraries := .standard :: libraries
  ⟨libraries.foldl (fun s l => l.paint s) (scheme.fill .standard), catalog, libraries⟩

/-- The language without additions. -/
def standard : Language := build .empty .standard []

/-- A cell with its kind in the language. -/
def pixel (l : Language) (x y : Nat) (c : Colour) : Pixel :=
  ⟨c, x, y, classify l.scheme l.catalog c⟩

/-- The cells of an image, row by row, with their kinds. -/
def cells (l : Language) (img : Image) : List Pixel :=
  img.places.map fun (x, y, c) => l.pixel x y c

/-- The pixels of an image: its cells that are not blank. -/
def pixels (l : Language) (img : Image) : List Pixel := (l.cells img).filter (!·.isBlank)

def globalBindings (l : Language) : Bindings :=
  l.libraries.foldl (fun b library => library.bind l.scheme b) .empty

/-- The scope in which a program starts. -/
def globalScope (l : Language) : Scope := .ofGlobals l.globalBindings

/-- The log of making the global scope. -/
def globalLog (l : Language) : List Event :=
  l.libraries.flatMap fun library =>
    library.bindLog l.scheme ++ [.registered (library.boundCount l.scheme) library.name]

end Language

end PixelLang
