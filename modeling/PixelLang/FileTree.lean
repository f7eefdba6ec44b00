import PixelLang.Path

/-!
# File trees

A `FileTree` is what commands read and write: directories and files by their absolute path. A path
is followed part by part, and a `FileFault` says why it leads nowhere.
-/

set_option autoImplicit false

namespace PixelLang

inductive Node
  | directory
  | file (data : ByteArray)

/-- Why a file cannot be read or written. -/
inductive FileFault
  | missing
  | notDirectory
  | isDirectory
  /-- A name on the path, or the path itself, is longer than a path can be. -/
  | nameTooLong
  /-- The path holds the character that ends paths. -/
  | nulInPath
  | notText
deriving DecidableEq

def FileFault.message : FileFault → String
  | missing => "No such file or directory (os error 2)"
  | notDirectory => "Not a directory (os error 20)"
  | isDirectory => "Is a directory (os error 21)"
  | nameTooLong => "File name too long (os error 36)"
  | nulInPath => "file name contained an unexpected NUL byte"
  | notText => "stream did not contain valid UTF-8"

/-- Nodes by the names on their path from the root, which is always a directory. -/
structure FileTree where
  nodes : List (List String × Node)

namespace FileTree

def empty : FileTree := ⟨[]⟩

def node? (t : FileTree) (names : List String) : Option Node :=
  if names.isEmpty then some .directory else t.nodes.lookup names

/-- Puts a node in place of the one at the same path, or at the end. -/
def setNode (names : List String) (n : Node) : List (List String × Node) → List (List String × Node)
  | [] => [(names, n)]
  | (path, old) :: rest =>
    if names = path then (names, n) :: rest else (path, old) :: setNode names n rest

def set (t : FileTree) (names : List String) (n : Node) : FileTree := ⟨setNode names n t.nodes⟩

/-- Makes the directories on a path that are missing. -/
def makeDirectories (t : FileTree) (names : List String) : FileTree :=
  (List.range names.length).foldl (fun t i =>
    let path := names.take (i + 1)
    if (t.node? path).isSome then t else t.set path .directory) t

/-- Adds a node, and the directories it is in. -/
def insert (t : FileTree) (names : List String) (n : Node) : FileTree :=
  (t.makeDirectories names.dropLast).set names n

/-! ## Paths -/

/-- Why a path leads nowhere, whatever the tree holds. -/
def pathFault? (path : String) : Option FileFault :=
  if path.toList.contains '\x00' then some .nulInPath
  else if path.isEmpty then some .missing
  else if Path.isTooLong path then some .nameTooLong
  else none

/-- Goes along the parts of a path. All but the last place must be a directory. -/
def walk (t : FileTree) : (place : List String) → (parts : List String) →
    Except FileFault (List String)
  | place, [] => .ok place
  | place, part :: rest =>
    match t.node? place with
    | some .directory =>
      if Path.isLongName part then .error .nameTooLong
      else if Path.isIdle part then walk t place rest
      else if part == ".." then walk t place.dropLast rest
      else walk t (place ++ [part]) rest
    | some (.file _) => .error .notDirectory
    | none => .error .missing

/-- Where a path that is given in a directory starts. -/
def start (cwd : List String) (path : String) : List String :=
  if Path.isAbsolute path then [] else cwd

/-- Where a path ends, with the directories made that it leads back out of. -/
def enter : (t : FileTree) → (place : List String) → (parts : List String) →
    FileTree × List String
  | t, place, [] => (t, place)
  | t, place, part :: rest =>
    if Path.isIdle part then enter t place rest
    else if part == ".." then enter (t.makeDirectories place) place.dropLast rest
    else enter t (place ++ [part]) rest

/-- Adds a node at a path that is given in a directory, and the directories on the path. -/
def insertAt (t : FileTree) (cwd : List String) (path : String) (n : Node) : FileTree :=
  let (t, names) := t.enter (start cwd path) (Path.parts path)
  t.insert names n

/-- The place that a path leads to from a directory. -/
def resolve (t : FileTree) (cwd : List String) (path : String) : Except FileFault (List String) :=
  match pathFault? path with
  | some fault => .error fault
  | none => t.walk (start cwd path) (Path.parts path)

/-- The place of a file that is to be written. The directory it is in must be there; a path that
ends with a slash, with `.` or with `..` can only lead to a directory. -/
def resolveNew (t : FileTree) (cwd : List String) (path : String) :
    Except FileFault (List String) :=
  match pathFault? path with
  | some fault => .error fault
  | none =>
    let named := Path.withoutSlash (Path.parts path)
    match t.walk (start cwd path) named.dropLast with
    | .error fault => .error fault
    | .ok parent =>
      match t.node? parent, named.getLast? with
      | none, _ => .error .missing
      | some (.file _), _ => .error .notDirectory
      | some .directory, none => .error .isDirectory
      | some .directory, some name =>
        if Path.isIdle name || name == ".." || Path.endsWithSlash path then .error .isDirectory
        else if Path.isLongName name then .error .nameTooLong
        else .ok (parent ++ [name])

end FileTree

end PixelLang
