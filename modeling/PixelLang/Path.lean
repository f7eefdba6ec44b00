import PixelLang.Text

/-!
# Paths

Paths are texts whose parts are divided by slashes. Empty parts and the part `.` name nothing. A
path inside the working directory is displayed relative to it.
-/

set_option autoImplicit false

namespace PixelLang.Path

/-- The parts of a path between the slashes. -/
def parts (path : String) : List String := (Text.fields '/' path.toList).map String.ofList

def isAbsolute (path : String) : Bool := path.toList.head? == some '/'

/-- The part stands for the directory it is in. -/
def isIdle (part : String) : Bool := part == "" || part == "."

/-- The most bytes in the name of a file. -/
def nameLimit : Nat := 255

/-- The most bytes in a path. -/
def lengthLimit : Nat := 4095

def isLongName (part : String) : Bool := nameLimit < part.utf8ByteSize

def isTooLong (path : String) : Bool := lengthLimit < path.utf8ByteSize

def endsWithSlash (path : String) : Bool := path.toList.getLast? == some '/'

/-- The parts without the empty ones that slashes at the end leave. -/
def withoutSlash (parts : List String) : List String :=
  (parts.reverse.dropWhile (· == "")).reverse

/-- A path as seen from a directory. -/
def join (base path : String) : String :=
  if isAbsolute path || base.isEmpty then path
  else if endsWithSlash base then base ++ path
  else base ++ "/" ++ path

/-- The last part of a path that names something. -/
def fileName? (path : String) : Option String :=
  ((parts path).filter (!isIdle ·)).getLast?.filter (· != "..")

/-- The text after the last point of a file name, where something stands before that point. -/
def extensionOf? (name : String) : Option String :=
  match Text.cut '.' name.toList.reverse with
  | some (_, []) => none
  | some (ext, _) => some (String.ofList ext.reverse)
  | none => none

def extension? (path : String) : Option String := (fileName? path).bind extensionOf?

/-- Small letters for the capital letters of ASCII. -/
def lowerCase (s : String) : List Char := s.toList.map Char.toLower

/-- The extension of an image file, in letters of either case. -/
def isPng (ext : String) : Bool := lowerCase ext == "png".toList

/-! ## Display -/

/-- The text without slashes and parts `.` at its start. -/
def skipIdle : List Char → List Char
  | '/' :: rest => skipIdle rest
  | ['.'] => []
  | '.' :: '/' :: rest => skipIdle rest
  | cs => cs

/-- The text without slashes and parts `.` at either end. -/
def trimIdle (cs : List Char) : List Char := (skipIdle (skipIdle cs).reverse).reverse

/-- What follows the parts `names` at the start of a path. -/
def afterNames : (names : List String) → List Char → Option (List Char)
  | [], cs => some (trimIdle cs)
  | name :: names, cs =>
    let cs := skipIdle cs
    if String.ofList (cs.takeWhile (· != '/')) == name then
      afterNames names (cs.dropWhile (· != '/'))
    else none

/-- A path as it is displayed: relative to the working directory `cwd` where it is inside it. -/
def display (cwd path : String) : String :=
  if isAbsolute path then
    match afterNames ((parts cwd).filter (!isIdle ·)) path.toList with
    | some [] => "."
    | some rest => String.ofList rest
    | none => path
  else path

end PixelLang.Path
