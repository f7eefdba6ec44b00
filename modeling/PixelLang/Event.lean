import PixelLang.Diagnostic

/-!
# Events

An `Event` is one record of the log that an evaluation or a command keeps while it runs.
-/

set_option autoImplicit false

namespace PixelLang

inductive Level
  | debug
  | warn
deriving DecidableEq

def Level.name : Level → String
  | debug => "DEBUG"
  | warn => "WARN"

inductive Event
  /-- A library function has no colour in the scheme. -/
  | uncoloured (library function : String)
  | registered (count : Nat) (library : String)
  | invalidated (d : Diagnostic)
  | generating (k : Keyword) (remaining chain : Nat)
  | evaluating (count : Nat)
  | pushed (temporary : Bool) (depth : Nat)
  | popped (depth : Nat)
  /-- The global scope was to be left. -/
  | globalUnderflow
  /-- A block was to be closed and none is open. -/
  | blockUnderflow
  | strayClose (k : Keyword)
  | unclosedBlock (x y : Nat)
  | loaded (count : Nat) (path : String)
  /-- Images were found in a directory; `images` is their number with its noun. -/
  | found (images : String) (path : String)
deriving DecidableEq

namespace Event

def level : Event → Level
  | globalUnderflow | blockUnderflow | strayClose _ | unclosedBlock .. => .warn
  | _ => .debug

def message : Event → String
  | uncoloured library function =>
    "Library " ++ library ++ ": " ++ function ++ " has no colour and cannot be called"
  | registered count library =>
    "Registered " ++ toString count ++ " function(s) from " ++ library
  | invalidated d => "Invalidated: " ++ d.display
  | generating k remaining chain =>
    "Generating " ++ k.key ++ " with " ++ toString remaining ++ " pixel(s), chain " ++
      toString chain
  | evaluating count => "Evaluating " ++ toString count ++ " statement(s)"
  | pushed temporary depth =>
    "Pushed " ++ (if temporary then "temporary" else "block") ++ " scope, depth " ++
      toString depth
  | popped depth => "Popped scope, depth " ++ toString depth
  | globalUnderflow => "Scope underflow: only the global scope is left"
  | blockUnderflow => "Scope underflow: no block to close"
  | strayClose k => k.key ++ " closes a block that was never opened"
  | unclosedBlock x y => (Problem.unclosedBlock x y).message
  | loaded count path => "Loaded " ++ toString count ++ " scheme entries from " ++ path
  | found images path => "Found " ++ images ++ " in " ++ path

end Event

end PixelLang
