import PixelLang.Shell.Arguments
import PixelLang.Shell.Host

/-!
# The program

Reads the files that the arguments name into a file tree, does the command on it, and prints and
writes what comes of it.
-/

set_option autoImplicit false

namespace PixelLang

/-- What is at a path of the real files. -/
def nodeAt? (path : String) : IO (Option Node) := do
  let real? ← try some <$> IO.FS.realPath path catch _ => pure none
  match real? with
  | none => return none
  | some real =>
    if ← real.isDir then return some .directory
    else if ← real.pathExists then
      return some (.file (← IO.FS.readBinFile path))
    else return none

/-- Adds what is at the places along a path. -/
def loadWay (t : FileTree) (place : List String) (path : String) : IO FileTree := do
  let parts := Path.parts path
  let mut tree := t
  for i in List.range parts.length do
    let lead := String.intercalate "/" (parts.take (i + 1))
    if let some n ← nodeAt? lead then
      tree := tree.insertAt place lead n
  return tree

/-- Adds what is in a directory and the directories in it. -/
partial def loadBelow (t : FileTree) (place : List String) (path : String) : IO FileTree := do
  let mut tree := t
  for entry in ← (← IO.FS.realPath path).readDir do
    let inner := Path.join path entry.fileName
    if let some n ← nodeAt? inner then
      tree := tree.insertAt place inner n
      if let .directory := n then
        tree ← loadBelow tree place inner
  return tree

/-- The paths a command reads. -/
def Command.inputs : Command → List String
  | compile image scheme _ _ => image :: scheme.toList
  | check paths scheme => paths ++ scheme.toList
  | completions _ => []

/-- The file a command writes. -/
def Command.output? : Command → Option String
  | compile _ _ output _ => output
  | _ => none

def usageText : UsageFault → String
  | .help | .noArguments => "Usage: pxl <compile|check|completions> ..."
  | .version => "pxl 0.4.1"
  | .missingRequired => "error: a required argument is missing"
  | .unknownCommand => "error: unrecognized subcommand"
  | .unknownArgument => "error: unexpected argument"
  | .conflict => "error: an argument is given more than once"
  | .invalidValue => "error: an argument has no valid value"
  | .unneededValue => "error: an argument takes no value"

/-- Does a command on the real files. -/
def Command.perform (c : Command) : IO UInt32 := do
  let cwd := (← IO.currentDir).toString
  let place := (Path.parts cwd).filter (!Path.isIdle ·)
  let mut files := FileTree.empty.makeDirectories place
  for path in c.inputs ++ c.output?.toList do
    files ← loadWay files place path
  for path in c.inputs do
    if let some .directory ← nodeAt? path then
      files ← loadBelow files place path
  let outcome := c.run ⟨files, cwd, .shell⟩
  IO.eprint outcome.stderr
  IO.print outcome.stdout
  match outcome.failure with
  | some failure =>
    IO.eprintln failure.message
    return 1
  | none =>
    if let some path := c.output? then
      if let .ok text := outcome.workspace.readText path then
        IO.FS.writeFile path text
    return 0

end PixelLang

def main (arguments : List String) : IO UInt32 := do
  match PixelLang.Command.parse arguments with
  | .ok command => command.perform
  | .error .help => do IO.println (PixelLang.usageText .help); return 0
  | .error .version => do IO.println (PixelLang.usageText .version); return 0
  | .error fault => do IO.eprintln (PixelLang.usageText fault); return 2
