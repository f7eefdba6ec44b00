import PixelLang.Event
import PixelLang.Reader.Basic

/-!
# Stacks of readers

Slices are read in a nested way: a slice is cut from the reader on top, is worked on, and is then
absorbed by the reader below or dropped. A `ReaderStack` is never empty.
-/

set_option autoImplicit false

namespace PixelLang

structure ReaderStack where
  top : Reader
  below : List Reader
deriving DecidableEq

/-- A step on the reader on top. -/
inductive ReaderStep
  | next
  | peek
  | setIndex (index : Nat)
  | skipToEnd
  | nextSequence
  | report (problem : Problem) (target : Target) (template : Option Template)
  /-- Cuts a slice and puts it on top. -/
  | slice (start stop : Nat)
  /-- The reader below takes over the diagnostics of the one on top, which goes. -/
  | absorb
  /-- The reader on top goes. -/
  | drop
deriving DecidableEq

namespace ReaderStack

def ofReader (r : Reader) : ReaderStack := ⟨r, []⟩

/-- The number of slices on the stack. -/
def level (s : ReaderStack) : Nat := s.below.length

/-- Does a step; the last reader is neither absorbed nor dropped. -/
def step (s : ReaderStack) : ReaderStep → ReaderStack
  | .next => { s with top := s.top.next.2 }
  | .peek => s
  | .setIndex index => { s with top := s.top.setIndex index }
  | .skipToEnd => { s with top := s.top.skipToEnd }
  | .nextSequence => { s with top := s.top.nextSequence.2 }
  | .report problem target template =>
    { s with top := s.top.record (s.top.locate problem target template) }
  | .slice start stop => ⟨s.top.slice start stop, s.top :: s.below⟩
  | .absorb =>
    match s.below with
    | [] => s
    | r :: rest => ⟨r.absorb s.top, rest⟩
  | .drop =>
    match s.below with
    | [] => s
    | r :: rest => ⟨r, rest⟩

/-- Does steps in turn. -/
def run (s : ReaderStack) (steps : List ReaderStep) : ReaderStack := steps.foldl step s

/-- The log of a step: the diagnostics it records. -/
def stepLog (s : ReaderStack) : ReaderStep → List Event
  | .nextSequence =>
    (s.top.nextSequence.2.diagnostics.drop s.top.diagnostics.length).map .invalidated
  | .report problem target template => [.invalidated (s.top.locate problem target template)]
  | _ => []

end ReaderStack

end PixelLang
