import PixelLang.Command

/-!
# Command lines

A `Command` is read from the arguments of the program. An argument that has been seen but not used
is pending until the next one is known to be good: an argument nobody knows is reported before a
fault of the pending one.
-/

set_option autoImplicit false

namespace PixelLang

/-- Why arguments name no command to run. -/
inductive UsageFault
  | missingRequired
  | unknownCommand
  | unknownArgument
  /-- An option is given twice. -/
  | conflict
  | invalidValue
  /-- A flag is given a value. -/
  | unneededValue
  /-- The help text is asked for. -/
  | help
  | version
  | noArguments
deriving DecidableEq

/-- The arguments a command takes. -/
structure Grammar where
  /-- The options that take a value, with their letters. -/
  options : List (String × Option Char)
  flags : List String
  /-- Any number of plain arguments may be given, not only one. -/
  many : Bool
  /-- A plain argument is good. -/
  accepts : String → Bool

/-- An argument that is not used yet. -/
inductive PendingArgument
  | option (name : String) (value : Option String)
  | plain (values : List String)
deriving DecidableEq

structure Arguments where
  options : List (String × String) := []
  flags : List String := []
  plain : List String := []
  pending : Option PendingArgument := none
deriving DecidableEq

namespace Arguments

def setOption (a : Arguments) (name value : String) : Except UsageFault Arguments :=
  if (a.options.lookup name).isSome then .error .conflict
  else if value.isEmpty then .error .invalidValue
  else .ok { a with options := (name, value) :: a.options }

def setFlag (a : Arguments) (name : String) : Except UsageFault Arguments :=
  if a.flags.contains name then .error .conflict else .ok { a with flags := name :: a.flags }

/-- Uses the pending argument. -/
def resolve (g : Grammar) (a : Arguments) : Except UsageFault Arguments :=
  let settled := { a with pending := none }
  match a.pending with
  | none => .ok a
  | some (.option _ none) => .error .invalidValue
  | some (.option name (some value)) => settled.setOption name value
  | some (.plain values) =>
    if values.all g.accepts then .ok { settled with plain := a.plain ++ values }
    else .error .invalidValue

/-- An option with its value, or an option whose value is the next argument. -/
def addOption (g : Grammar) (a : Arguments) (name : String) (value : Option String) :
    Except UsageFault Arguments := do
  let a ← a.resolve g
  match value with
  | some value => a.setOption name value
  | none => return { a with pending := some (.option name none) }

/-- An argument that starts with two dashes, which `body` follows. -/
def addLong (g : Grammar) (a : Arguments) (body : List Char) : Except UsageFault Arguments := do
  let (name, value) :=
    match Text.cut '=' body with
    | some (name, value) => (String.ofList name, some (String.ofList value))
    | none => (String.ofList body, none)
  if g.options.any (·.1 == name) then a.addOption g name value
  else if g.flags.contains name || name == "help" then
    if value.isSome then .error .unneededValue
    else
      let a ← a.resolve g
      if name == "help" then .error .help else a.setFlag name
  else .error .unknownArgument

/-- The text without one leading `=`. -/
def dropEquals : List Char → List Char
  | '=' :: rest => rest
  | cs => cs

/-- An argument of one dash and a letter; the value of an option may follow it directly. -/
def addShort (g : Grammar) (a : Arguments) (letter : Char) (rest : List Char) :
    Except UsageFault Arguments := do
  match g.options.find? fun option => option.2 == some letter with
  | some (name, _) =>
    let value := if rest.isEmpty then none else some (String.ofList (dropEquals rest))
    a.addOption g name value
  | none =>
    if letter == 'h' then
      let _ ← a.resolve g
      .error .help
    else .error .unknownArgument

/-- A plain argument. -/
def addPlain (g : Grammar) (a : Arguments) (value : String) : Except UsageFault Arguments := do
  match a.pending with
  | some (.plain values) =>
    if g.many then return { a with pending := some (.plain (values ++ [value])) }
    else .error .unknownArgument
  | _ =>
    if !g.many && !a.plain.isEmpty then .error .unknownArgument
    else
      let a ← a.resolve g
      return { a with pending := some (.plain [value]) }

/-- An argument before any `--`. -/
def add (g : Grammar) (a : Arguments) (argument : String) : Except UsageFault Arguments :=
  match argument.toList with
  | '-' :: '-' :: body => a.addLong g body
  | '-' :: letter :: rest => a.addShort g letter rest
  | _ =>
    match a.pending with
    | some (.option name none) =>
      .ok { a with pending := some (.option name (some argument)) }
    | _ => a.addPlain g argument

/-- Reads arguments; after `--` all of them are plain. -/
def parseFrom (g : Grammar) :
    (plainOnly : Bool) → Arguments → List String → Except UsageFault Arguments
  | _, a, [] => a.resolve g
  | true, a, argument :: rest => do parseFrom g true (← a.addPlain g argument) rest
  | false, a, argument :: rest =>
    if argument == "--" then parseFrom g true a rest
    else do parseFrom g false (← a.add g argument) rest

/-- Reads the arguments of a command, which must have a plain one. -/
def parse (g : Grammar) (arguments : List String) : Except UsageFault Arguments := do
  let a ← parseFrom g false {} arguments
  if a.plain.isEmpty then .error .missingRequired else return a

end Arguments

namespace Command

def compileGrammar : Grammar where
  options := [("scheme", none), ("output", some 'o')]
  flags := ["json"]
  many := false
  accepts path := !path.isEmpty

def checkGrammar : Grammar where
  options := [("scheme", none)]
  flags := []
  many := true
  accepts path := !path.isEmpty

/-- The shells that completions can be made for. -/
def shells : List String := ["bash", "elvish", "fish", "powershell", "zsh"]

def completionsGrammar : Grammar where
  options := []
  flags := []
  many := false
  accepts shell := shells.contains shell

def names : List String := ["compile", "check", "completions", "help"]

def parseCompile (arguments : List String) : Except UsageFault Command := do
  let a ← Arguments.parse compileGrammar arguments
  return .compile (a.plain.headD "") (a.options.lookup "scheme") (a.options.lookup "output")
    (a.flags.contains "json")

def parseCheck (arguments : List String) : Except UsageFault Command := do
  let a ← Arguments.parse checkGrammar arguments
  return .check a.plain (a.options.lookup "scheme")

def parseCompletions (arguments : List String) : Except UsageFault Command := do
  let a ← Arguments.parse completionsGrammar arguments
  return .completions (a.plain.headD "")

/-- What is asked of the help command: at most the name of one command. -/
def helpFault : List String → UsageFault
  | [] => .help
  | [name] => if names.contains name then .help else .unknownCommand
  | _ => .unknownCommand

/-- A first argument that starts with two dashes, which `body` follows. -/
def longFault (body : List Char) : UsageFault :=
  let (name, value) :=
    match Text.cut '=' body with
    | some (name, value) => (String.ofList name, some value)
    | none => (String.ofList body, none)
  if name == "help" || name == "version" then
    if value.isSome then .unneededValue
    else if name == "help" then .help
    else .version
  else .unknownArgument

/-- A first argument that names no command. -/
def firstFault (argument : String) : UsageFault :=
  match argument.toList with
  | '-' :: '-' :: body => longFault body
  | '-' :: letter :: _ =>
    if letter == 'h' then .help else if letter == 'V' then .version else .unknownArgument
  | _ => .unknownCommand

/-- A command after `--`, where none may stand. -/
def escapedFault : List String → UsageFault
  | [] => .noArguments
  | argument :: _ => if names.contains argument then .unknownArgument else .unknownCommand

/-- Reads the arguments after the name of the program. -/
def parse : List String → Except UsageFault Command
  | [] => .error .noArguments
  | name :: rest =>
    if name == "compile" then parseCompile rest
    else if name == "check" then parseCheck rest
    else if name == "completions" then parseCompletions rest
    else if name == "help" then .error (helpFault rest)
    else if name == "--" then .error (escapedFault rest)
    else .error (firstFault name)

end Command

end PixelLang
