import PixelLang.Keyword

/-!
# Layout

A `Layout` collects the code of statements. A statement stands on a line of its own, indented by
its depth, or is joined to the one before. Blank lines stand where statements ask for them, but
not at the start of a block or before its end.
-/

set_option autoImplicit false

namespace PixelLang

structure Layout where
  code : String
  /-- The keyword of the statement before. -/
  last : Option Keyword
  /-- The statement before was invalid. -/
  lastInvalid : Bool
  /-- A statement has asked for a blank line after it. -/
  blankPending : Bool
deriving DecidableEq

/-- A statement to be laid out. -/
structure Line where
  keyword : Keyword
  previous : Option Keyword
  declaresFunction : Bool
  depth : Nat
  invalid : Bool
  code : String

/-- What is written of a statement: its code, or a comment where it is invalid. -/
def Line.text (l : Line) : String :=
  if l.invalid then "// " ++ l.keyword.key ++ ": invalid statement" else l.code

/-- The text that joins a statement to the one before, where it does not start a line. -/
def joiner : (previous : Option Keyword) → Keyword → (declaresFunction : Bool) → Option String
  | some .declare, .blockOpen, true => some ""
  | some .ifThen, .blockOpen, _ | some .orElse, .blockOpen, _ | some .forEach, .blockOpen, _
  | some .whileLoop, .blockOpen, _ => some " "
  | some .orElse, .ifThen, _ => some " "
  | some .blockClose, .orElse, _ => some " "
  | _, _, _ => none

/-- One level of indentation. -/
def indentUnit : String := "    "

/-- The indentation of a level. -/
def indent (level : Nat) : String := String.join (List.replicate level indentUnit)

/-- The level of a line: the end of a block stands where the block starts. -/
def Line.level (l : Line) : Nat := if l.keyword.traits.closesBlock then l.depth - 1 else l.depth

namespace Layout

def empty : Layout := ⟨"", none, false, false⟩

/-- The joiner of a statement, if it and the one before are valid. -/
def joiner? (layout : Layout) (l : Line) : Option String :=
  if l.invalid || layout.lastInvalid || layout.last.isNone then none
  else joiner l.previous l.keyword l.declaresFunction

/-- A blank line stands before the statement. -/
def wantsBlank (layout : Layout) (k : Keyword) : Bool :=
  (layout.blankPending || k.traits.spacing.isBefore) &&
    !layout.last.any (·.traits.opens) && !k.traits.closesBlock

/-- The line ends before a statement that starts a line. -/
def lineBreak (layout : Layout) (k : Keyword) : String :=
  if layout.code.isEmpty then "" else if layout.wantsBlank k then "\n\n" else "\n"

/-- What stands between the code so far and the text of a statement. -/
def lead (layout : Layout) (l : Line) : String :=
  match layout.joiner? l with
  | some joint => joint
  | none => if l.text.isEmpty then "" else layout.lineBreak l.keyword ++ indent l.level

/-- The statement is written at all. -/
def writes (layout : Layout) (l : Line) : Bool := (layout.joiner? l).isSome || !l.text.isEmpty

/-- Adds a statement. -/
def emit (layout : Layout) (l : Line) : Layout where
  code := layout.code ++ layout.lead l ++ l.text
  last := some l.keyword
  lastInvalid := l.invalid
  blankPending := l.keyword.traits.spacing.isAfter || (layout.blankPending && !layout.writes l)

/-- The code of all statements, its last line ended. -/
def finish (layout : Layout) : String :=
  if layout.code.isEmpty then "" else layout.code ++ "\n"

end Layout

end PixelLang
