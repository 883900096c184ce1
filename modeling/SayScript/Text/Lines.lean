import SayScript.Text.Blank

/-! # Lines of a text

    A line ends with a line feed or with a carriage return and a line feed.
    A final line feed opens no further line, so the empty text has no lines.
    A carriage return that no line feed follows belongs to its line. -/

namespace SayScript.Text

/-- A line without the carriage return that stood before its line feed. -/
def dropReturn (line : List Char) : List Char :=
  if line.getLast? = some '\r' then line.dropLast else line

/-- The lines of a text, without their ends. -/
def lines (text : List Char) : List (List Char) :=
  let segments := text.splitOn '\n'
  segments.dropLast.map dropReturn ++
    segments.getLast?.toList.filter fun segment => !segment.isEmpty

/-- The number of the line in the given place, where places are counted from
    1.  A number has 32 bits, so that those of a long text start again at
    0. -/
def lineNumber (place : Nat) : Nat :=
  place % UInt32.size

/-- The lines, each with its number. -/
def numbered (ls : List (List Char)) : List (List Char × Nat) :=
  (ls.zipIdx 1).map (Prod.map id lineNumber)

/-- The lines of a text, each with its number. -/
def numberedLines (text : List Char) : List (List Char × Nat) :=
  numbered (lines text)

/-- What a line of a script says: its trimmed text, and nothing when that is
    empty or a comment (its first character is `#`). -/
def content? (line : List Char) : Option (List Char) :=
  match trim line with
  | [] => none
  | c :: cs => if c = '#' then none else some (c :: cs)

/-- The text made of the given lines, each ended by a line feed. -/
def unlines (ls : List String) : String :=
  ls.foldl (fun text line => text ++ line ++ "\n") ""

end SayScript.Text
