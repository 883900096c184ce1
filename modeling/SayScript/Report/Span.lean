import SayScript.Text.Lines

/-! # Spans

    A span is a range of characters of a text, from `start` up to but not
    including `stop`. -/

namespace SayScript

/-- A range of characters. -/
structure Span where
  start : Nat
  stop : Nat
  deriving DecidableEq, Repr

namespace Span

/-- The greatest offset there is. -/
def maxOffset : Nat :=
  UInt64.size - 1

/-- The empty range at the end of a text. -/
def atEnd (text : List Char) : Span :=
  { start := text.length, stop := text.length }

/-- The range of the trimmed text of the line after so many others, where a
    line feed alone ends a line.  A line that is blank or not there has the
    empty range at the end. -/
def ofPlace (text : List Char) (before : Nat) : Span :=
  let segments := text.splitOn '\n'
  match segments[before]? with
  | none => atEnd text
  | some segment =>
    if Text.trim segment = [] then
      atEnd text
    else
      -- the lines before, and a line feed for each
      let offset := (segments.take before).flatten.length + before
      let start := offset + (segment.takeWhile Text.isBlank).length
      { start, stop := start + (Text.trim segment).length }

/-- The range of the first line with the given number. -/
def ofLine (text : List Char) (line : Nat) : Span :=
  match (Text.numbered (text.splitOn '\n')).findIdx? (·.2 = line) with
  | none => atEnd text
  | some before => ofPlace text before

/-- A span that can be seen: one that is empty or runs backwards becomes one
    character long, as far as there are offsets. -/
def visible (s : Span) : Span :=
  if s.stop ≤ s.start then
    { start := s.start, stop := min (s.start + 1) maxOffset }
  else
    s

end Span

end SayScript
