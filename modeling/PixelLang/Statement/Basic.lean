import PixelLang.Reader.Basic
import PixelLang.Scope

/-!
# Statements

The `Context` is all that generating a statement may look at besides its own pixels. `Generated`
is what comes of it: the code, and the names it binds.

What several statements have in common is read here: names, lists of names, the end of the
statement and the body that must follow.
-/

set_option autoImplicit false

namespace PixelLang

/-- The surroundings of a statement. -/
structure Context where
  scope : Scope
  previous : Option Keyword
  next : Option Keyword
  /-- How often the bare keyword is repeated, this time included. -/
  chain : Nat
  /-- The block is the body of a function that the statement before declares. -/
  declaresFunction : Bool

/-- A function whose block, and with it the parameters, comes next. -/
structure Pending where
  key : String
  name : String
deriving DecidableEq

/-- The key and the member of the function with these parameters. -/
def Pending.resolve (p : Pending) (parameters : List (String × Member)) : String × Member :=
  (p.key, .func p.name [⟨parameters.map fun entry => .named entry.2.name⟩] false)

/-- The result of generating a statement. -/
structure Generated where
  code : String := ""
  /-- Names bound in the scope of the statement. -/
  definitions : List (String × Member) := []
  /-- Names bound in the block that the statement opens. -/
  parameters : List (String × Member) := []
  pending : Option Pending := none
deriving DecidableEq

/-! ## Common tokens -/

namespace Reader

/-- Reads a name, the token of the given number. -/
def readName (k : Keyword) (token : Nat) (r : Reader) : Option Pixel × Reader :=
  let template := k.template.failedAt token
  match r.next with
  | (none, r) => (none, r.reportIn template (.missingName k) .cursor)
  | (some p, r) =>
    if p.isSymbol then (some p, r) else (none, r.reportIn template (.notName p) .cursor)

/-- Reads one pixel of a list of names: it must be a symbol that is not in the list. -/
def readNamesStep (k : Keyword) (token : Nat) (acc : List Pixel × Reader) (p : Pixel) :
    List Pixel × Reader :=
  let r := acc.2.advance 1
  if !p.isSymbol then (acc.1, r.reportIn (k.template.failedAt token) (.notName p) .cursor)
  else if acc.1.any (·.hex == p.hex) then (acc.1, r.report (.repeatedName p) .cursor)
  else (acc.1 ++ [p], r)

/-- Reads all remaining pixels as names, the token of the given number. -/
def readNames (k : Keyword) (token : Nat) (r : Reader) : List Pixel × Reader :=
  r.remaining.foldl (readNamesStep k token) ([], r)

/-- Reports a pixel after the end of the statement. -/
def rejectTrailing (k : Keyword) (r : Reader) : Reader :=
  match r.next with
  | (none, r) => r
  | (some p, r) =>
    (r.reportIn (k.template.failedAt k.tokens.length) (.trailing p k) .cursor).skipToEnd

/-- Reports that no statement follows as the body. -/
def requireBody (k : Keyword) (next : Option Keyword) (r : Reader) : Reader :=
  if next = none ∨ next = some .blockClose then r.report (.noBody k) .first else r

end Reader

end PixelLang
