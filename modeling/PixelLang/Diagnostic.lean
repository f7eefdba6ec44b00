import PixelLang.Problem
import PixelLang.Template

/-!
# Diagnostics

A `Diagnostic` is a problem at a place of the image. In a statement it also has the number of the
pixel in that statement, and it may show how far the statement's template was read.
-/

set_option autoImplicit false

namespace PixelLang

structure Diagnostic where
  problem : Problem
  x : Nat
  y : Nat
  /-- The number of the pixel in its statement. -/
  tokenIndex : Nat
  keyword : Option Keyword
  template : Option Template
deriving DecidableEq

namespace Diagnostic

def kind (d : Diagnostic) : ProblemKind := d.problem.kind

def message (d : Diagnostic) : String := d.problem.message

/-- The template lines, each on a line of its own and indented. -/
def templateText (d : Diagnostic) : String :=
  match d.template with
  | none => ""
  | some t => String.join (t.lines.map fun line => "\n    " ++ line)

/-- The diagnostic on its own, as the log shows it. -/
def display (d : Diagnostic) : String :=
  "error[" ++ d.kind.code ++ "] at " ++ Pixel.placeText d.x d.y ++
    (match d.keyword with
      | some k => " in " ++ k.key ++ " (token " ++ toString d.tokenIndex ++ ")"
      | none => "") ++
    ": " ++ d.message ++ d.templateText

end Diagnostic

/-- The number of diagnostics of a kind. -/
def countKind (ds : List Diagnostic) (kind : ProblemKind) : Nat := ds.countP (·.kind == kind)

end PixelLang
