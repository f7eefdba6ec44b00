import PixelLang.Workspace

/-!
# The host of the shell

The shell reads pictures as rasters, walks a directory along its file tree, and writes a JSON value
over several lines, two blanks to a level.

A raster is an image written as text: a line for each row, and in it colours between blanks. Two
hex digits are a grey, everything else is the hex text of a colour.
-/

set_option autoImplicit false

namespace PixelLang

/-! ## Rasters -/

namespace Raster

/-- Reads one colour. -/
def token (s : String) : Except HexFault Colour :=
  match s.toList with
  | [high, low] =>
    match Text.Hex.value? high, Text.Hex.value? low with
    | some h, some l => .ok (.grey (UInt8.ofNat (16 * h + l)))
    | _, _ => Colour.ofHex s
  | _ => Colour.ofHex s

def row (s : String) : Except HexFault (List Colour) :=
  ((Text.fields ' ' s.toList).filter (!·.isEmpty)).mapM fun cs => token (String.ofList cs)

def image (rows : List String) : Except HexFault Image := do
  return .ofRows (← rows.mapM row)

/-- The picture of a file that holds a raster. -/
def decode (_path : String) : Node → Except String Image
  | .directory => .error FileFault.isDirectory.message
  | .file data =>
    match String.fromUTF8? data with
    | none => .error FileFault.notText.message
    | some text => (image ((Text.lines text.toList).map String.ofList)).mapError HexFault.message

end Raster

/-! ## Directories -/

namespace FileTree

/-- What follows the names `lead` on a path. -/
def below? : (lead : List String) → List String → Option (List String)
  | [], names => some names
  | _ :: _, [] => none
  | l :: lead, name :: names => if l = name then below? lead names else none

/-- The names on the way from a directory to the nodes below it. -/
def below (t : FileTree) (place : List String) : List (List String) :=
  t.nodes.filterMap fun (names, _) => below? place names

end FileTree

/-! ## JSON texts -/

namespace Json

/-- The lower-case digit of a value below sixteen. -/
def smallDigit (n : Nat) : Char := if n < 10 then Char.ofNat (48 + n) else Char.ofNat (87 + n)

/-- A character as it stands in a JSON string. -/
def escape (c : Char) : List Char :=
  if c = '"' then ['\\', '"']
  else if c = '\\' then ['\\', '\\']
  else if c.toNat = 8 then ['\\', 'b']
  else if c.toNat = 12 then ['\\', 'f']
  else if c = '\n' then ['\\', 'n']
  else if c = '\r' then ['\\', 'r']
  else if c = '\t' then ['\\', 't']
  else if c.toNat < 0x20 then
    ['\\', 'u', '0', '0', smallDigit (c.toNat / 16), smallDigit (c.toNat % 16)]
  else [c]

def quoted (s : String) : String :=
  String.ofList ('"' :: s.toList.flatMap escape ++ ['"'])

/-- A new line at a level. -/
def newline (level : Nat) : String := "\n" ++ String.ofList (List.replicate (2 * level) ' ')

/-- Items between brackets, each on a line of its own. -/
def bracketed (level : Nat) (opening closing : String) : List String → String
  | [] => opening ++ closing
  | items =>
    opening ++ newline (level + 1) ++ String.intercalate ("," ++ newline (level + 1)) items ++
      newline level ++ closing

mutual

/-- The text of a value that stands at a level. -/
def pretty (level : Nat) : Json → String
  | null => "null"
  | bool value => if value then "true" else "false"
  | number value => toString value
  | string value => quoted value
  | array items => bracketed level "[" "]" (prettyItems (level + 1) items)
  | object fields => bracketed level "\x7b" "\x7d" (prettyFields (level + 1) fields)

def prettyItems (level : Nat) : List Json → List String
  | [] => []
  | item :: rest => pretty level item :: prettyItems level rest

def prettyFields (level : Nat) : List (String × Json) → List String
  | [] => []
  | (key, value) :: rest => (quoted key ++ ": " ++ pretty level value) :: prettyFields level rest

end

end Json

/-- The host of the shell. -/
def Host.shell : Host where
  decode := Raster.decode
  walk := FileTree.below
  serialize json := .ok (json.pretty 0)

end PixelLang
