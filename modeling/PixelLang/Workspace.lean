import PixelLang.Evaluation
import PixelLang.FileTree

/-!
# Workspaces

A `Workspace` finds, reads and writes files by paths as they are given. What the program leaves to
others, among it the formats of pictures, is done by the `Host` of the workspace, of which nothing
is known but that its answers depend on what it is given.
-/

set_option autoImplicit false

namespace PixelLang

/-- What is done for the program and not by it. -/
structure Host where
  /-- The picture that is found at a path, or the message why it is none. -/
  decode : (path : String) → Node → Except String Image
  /-- The names on the way from a directory to each node below it, in any order. -/
  walk : FileTree → (place : List String) → List (List String)
  /-- The text of a JSON value, or the message why it has none. -/
  serialize : Json → Except String String

/-- A file tree, the working directory in it, and the host. -/
structure Workspace where
  files : FileTree
  /-- The absolute path of the working directory. -/
  cwd : String
  host : Host

namespace Workspace

/-- The names on the path of the working directory. -/
def place (w : Workspace) : List String := (Path.parts w.cwd).filter (!Path.isIdle ·)

/-- The node at a path. -/
def find (w : Workspace) (path : String) : Except FileFault Node :=
  match w.files.resolve w.place path with
  | .error fault => .error fault
  | .ok names =>
    match w.files.node? names with
    | some n => .ok n
    | none => .error .missing

def isDirectory (w : Workspace) (path : String) : Bool :=
  match w.find path with
  | .ok .directory => true
  | _ => false

def readText (w : Workspace) (path : String) : Except FileFault String :=
  match w.find path with
  | .error fault => .error fault
  | .ok .directory => .error .isDirectory
  | .ok (.file data) =>
    match String.fromUTF8? data with
    | some s => .ok s
    | none => .error .notText

/-- Opens an image. There must be something at the path, and the host must make a picture of it. -/
def openImage (w : Workspace) (path : String) : Except String Image :=
  match w.find path with
  | .error fault => .error fault.message
  | .ok n => w.host.decode path n

/-- Writes a text to a file, which need not exist. -/
def writeText (w : Workspace) (path text : String) : Except FileFault Workspace :=
  match w.files.resolveNew w.place path with
  | .error fault => .error fault
  | .ok names =>
    match w.files.node? names with
    | some .directory => .error .isDirectory
    | _ => .ok { w with files := w.files.set names (.file text.toUTF8) }

/-! ## Directories -/

/-- The order of paths: part by part. -/
def namesLE : List String → List String → Bool
  | [], _ => true
  | _ :: _, [] => false
  | a :: as, b :: bs => if a = b then namesLE as bs else a < b

/-- There is an image file at a place, by the extension of its name. -/
def isImageAt (w : Workspace) (names : List String) : Bool :=
  match w.files.node? names with
  | some (.file _) => (names.getLast?.bind Path.extensionOf?).any Path.isPng
  | _ => false

/-- The paths of the image files in a directory and the directories in it, in order. -/
def imagesIn (w : Workspace) (path : String) : List String :=
  match w.files.resolve w.place path with
  | .error _ => []
  | .ok place =>
    let found := (w.host.walk w.files place).filter fun names => w.isImageAt (place ++ names)
    (found.mergeSort namesLE).map fun names => names.foldl Path.join path

end Workspace

end PixelLang
