import PixelLang.FileTree
import PixelLang.Scheme.Source

/-!
# Failures

A `Failure` ends a command. It carries its cause; the message, the code and the help text that are
shown for it are made from that.
-/

set_option autoImplicit false

namespace PixelLang

/-- The number of things with their noun. -/
def plural (n : Nat) (singular many : String) : String :=
  toString n ++ " " ++ if n = 1 then singular else many

inductive FailureKind
  | io
  | image
  | parse
  | serialize
  | compile
deriving DecidableEq

def FailureKind.code : FailureKind → String
  | io => "pxl::io"
  | image => "pxl::image"
  | parse => "pxl::parse"
  | serialize => "pxl::serialize"
  | compile => "pxl::compile"

inductive Failure
  /-- A colour cannot be read. -/
  | colour (fault : HexFault)
  /-- The text of a scheme cannot be read. -/
  | scheme (fault : SchemeFault)
  /-- The file of a scheme cannot be read. -/
  | schemeFile (path : String) (fault : FileFault)
  | output (path : String) (fault : FileFault)
  | image (path message : String)
  /-- An evaluation has no JSON text. -/
  | serialize (message : String)
  /-- A program has errors. -/
  | program (path : String) (errors : Nat)
  /-- Some of the checked images are invalid. -/
  | images (checked invalid : Nat)
deriving DecidableEq

namespace Failure

def kind : Failure → FailureKind
  | colour _ | scheme _ => .parse
  | schemeFile .. | output .. => .io
  | image .. => .image
  | serialize _ => .serialize
  | program .. | images .. => .compile

/-- How many images were checked and how many of them are invalid. -/
def summary (checked invalid : Nat) : String :=
  plural checked "image" "images" ++ ", " ++ toString invalid ++ " invalid"

def message : Failure → String
  | colour fault => "Parse error: " ++ fault.message
  | scheme fault => "Parse error: " ++ fault.message
  | schemeFile path fault =>
    "IO error with " ++ path ++ ": Failed to read colour scheme: " ++ fault.message
  | output path fault => "IO error with " ++ path ++ ": Failed to write output: " ++ fault.message
  | image path message => "Image error with " ++ path ++ ": " ++ message
  | serialize message => "Serialization error: " ++ message
  | program path errors => "Compile error: " ++ path ++ " has " ++ plural errors "error" "errors"
  | images checked invalid => "Compile error: " ++ summary checked invalid

def help : Failure → Option String
  | colour fault => fault.help
  | scheme fault => fault.help
  | program .. => some "Run with --json to inspect the partially generated code"
  | _ => none

end Failure

end PixelLang
