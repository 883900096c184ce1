import SayScript.Text.Lines

/-! # Advice on layout

    How a script is indented never changes its meaning, but it can mislead.
    The advice looks at lines alone: a line opens a block if its first word
    is one that can, the line `end` closes one, and blocks are matched like
    brackets.  Every other line inside a block should be indented deeper
    than the line that opened it, and an `end` just as deep.

    Only spaces count as indentation. -/

namespace SayScript

/-- Something odd about the layout of a script. -/
inductive LayoutWarning where
  /-- An `end` closes nothing. -/
  | endWithoutBlock (line : Nat)
  /-- An `end` is not as deep as the line that opened its block. -/
  | endMismatch (line expected found : Nat)
  /-- A line is not deeper than the line that opened its block. -/
  | insufficientIndent (line expected found : Nat)
  /-- Some blocks are never closed. -/
  | unclosedBlocks (count : Nat)
  deriving DecidableEq, Repr

/-- The message for the warning. -/
def LayoutWarning.message : LayoutWarning → String
  | endWithoutBlock line =>
    s!"line {line}: 'end' without matching block start"
  | endMismatch line expected found =>
    s!"line {line}: 'end' indentation mismatch, " ++
      s!"expected {expected} spaces but got {found}"
  | insufficientIndent line expected found =>
    s!"line {line}: inconsistent indentation, " ++
      s!"expected more than {expected} spaces but got {found}"
  | unclosedBlocks count =>
    s!"end of file: {count} block(s) not closed with 'end'"

namespace Layout

/-- The number of spaces a line starts with. -/
def indentation (line : List Char) : Nat :=
  (line.takeWhile (· = ' ')).length

/-- The first words of lines that open a block. -/
def openers : List String :=
  ["function", "start", "if", "elif", "else"]

/-- The first word of a line, which ends at a blank or a colon. -/
def firstWord (content : List Char) : List Char :=
  content.takeWhile fun c => !(Text.isBlank c || c = ':')

/-- Does a line that says `content` open a block? -/
def opensBlock (content : List Char) : Bool :=
  String.ofList (firstWord content) ∈ openers

/-- Does a line that says `content` close a block? -/
def closesBlock (content : List Char) : Bool :=
  content = "end".toList

/-- The indentation of the lines whose blocks are open, innermost first, and
    the warnings so far, the last one first. -/
structure State where
  depths : List Nat
  warnings : List LayoutWarning
  deriving DecidableEq, Repr

namespace State

/-- Adds a warning. -/
def warn (s : State) (w : LayoutWarning) : State :=
  { s with warnings := w :: s.warnings }

/-- A line that closes a block, indented by `found` spaces. -/
def close (s : State) (number found : Nat) : State :=
  match s.depths with
  | [] => s.warn (.endWithoutBlock number)
  | expected :: outer =>
    let s := { s with depths := outer }
    if expected = found then s
    else s.warn (.endMismatch number expected found)

/-- A line that neither opens nor closes a block, indented by `found`
    spaces. -/
def plain (s : State) (number found : Nat) : State :=
  match s.depths with
  | [] => s
  | expected :: _ =>
    if expected < found then s
    else s.warn (.insufficientIndent number expected found)

/-- Looks at one line with its number. -/
def look (s : State) (numbered : List Char × Nat) : State :=
  let (line, number) := numbered
  match Text.content? line with
  | none => s
  | some content =>
    let found := indentation line
    if closesBlock content then s.close number found
    else if opensBlock content then { s with depths := found :: s.depths }
    else s.plain number found

/-- All warnings in order, when the lines have ended. -/
def finish (s : State) : List LayoutWarning :=
  s.warnings.reverse ++
    if s.depths.isEmpty then [] else [.unclosedBlocks s.depths.length]

end State

/-- The advice on a script. -/
def advise (script : String) : List LayoutWarning :=
  let initial : State := { depths := [], warnings := [] }
  ((Text.numberedLines script.toList).foldl State.look initial).finish

end Layout

end SayScript
