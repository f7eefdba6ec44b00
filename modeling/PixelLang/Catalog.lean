import PixelLang.Pixel
import PixelLang.Scheme.Basic

/-!
# Catalogs and classification

A `Catalog` is the list of keywords a language knows. A colour stands for the first of them that
the scheme paints with it.

`classify` gives a colour its kind. The kinds are tried in a fixed order, so that blank cells,
booleans, operators and keywords win over library symbols, and these over characters and names.
-/

set_option autoImplicit false

namespace PixelLang

structure Catalog where
  keywords : List Keyword

namespace Catalog

def empty : Catalog := ⟨[]⟩

/-- The catalog of all keywords. -/
def standard : Catalog := ⟨Keyword.all⟩

/-- Adds a keyword at the end, unless it is there. -/
def register (c : Catalog) (k : Keyword) : Catalog :=
  if c.keywords.contains k then c else ⟨c.keywords ++ [k]⟩

def ofList (keywords : List Keyword) : Catalog := keywords.foldl register empty

def byColour? (catalog : Catalog) (scheme : Scheme) (c : Colour) : Option Keyword :=
  catalog.keywords.find? fun k => scheme.paints k.key c

end Catalog

/-! ## Classification -/

/-- Fully transparent and white cells are blank in every scheme. -/
def isBlankColour (scheme : Scheme) (c : Colour) : Bool :=
  c.isTransparent || c == .white || scheme.paints Scheme.blankKey c

/-- The kind of a colour that no fixed key paints. -/
def classifyOpen (scheme : Scheme) (c : Colour) : PixelKind :=
  match scheme.librarySymbols.find? fun entry => entry.2.holds c with
  | some (key, _) => .library key
  | none =>
    match c.greyLevel? with
    | some code => .character code
    | none => .symbol

/-- The kind of a colour. -/
def classify (scheme : Scheme) (catalog : Catalog) (c : Colour) : PixelKind :=
  if isBlankColour scheme c then .blank
  else if scheme.paints (Scheme.boolKey true) c then .boolean true
  else if scheme.paints (Scheme.boolKey false) c then .boolean false
  else
    match Operator.all.find? fun op => scheme.paints op.key c with
    | some op => .operator op
    | none =>
      match catalog.byColour? scheme c with
      | some k => .keyword k
      | none => classifyOpen scheme c

/-- The keyword of a pixel, if the catalog knows it. -/
def Catalog.byPixel? (catalog : Catalog) (p : Pixel) : Option Keyword :=
  p.keyword?.filter catalog.keywords.contains

end PixelLang
