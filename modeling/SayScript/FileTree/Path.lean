/-! # Paths

    A path names a file by the directories that lead to it.  The parts `.`
    and `..` are kept, since whether they lead anywhere depends on the
    directories there are. -/

namespace SayScript

/-- A path, taken apart at the slashes. -/
structure Path where
  /-- Does it start at the root? -/
  isAbsolute : Bool
  /-- The parts between slashes, without empty ones. -/
  parts : List String
  /-- Does it end with a slash, so that only a directory fits? -/
  hasSlash : Bool
  deriving DecidableEq, Repr

namespace Path

/-- The path with the given text. -/
def ofString (s : String) : Path :=
  let cs := s.toList
  let pieces := cs.splitOn '/'
  { isAbsolute := cs.head? = some '/'
    parts := (pieces.filter fun piece => !piece.isEmpty).map String.ofList
    hasSlash := cs.getLast? = some '/' }

/-- The text of a path. -/
def text (p : Path) : String :=
  (if p.isAbsolute then "/" else "") ++ "/".intercalate p.parts ++
    (if p.hasSlash && !p.parts.isEmpty then "/" else "")

/-- The proper beginnings of a list of parts, the longest first, where both
    the list and the beginnings stand with the last part first.  The empty
    beginning and those that end in `.` are left out. -/
def beginnings : List String → List (List String)
  | [] => []
  | _ :: outer =>
    if outer.isEmpty || outer.head? = some "." then beginnings outer
    else outer :: beginnings outer

/-- The path and the paths of the directories around it, outwards.  A final
    `.` adds no directory of its own. -/
def ancestors (p : Path) : List Path :=
  p :: (beginnings (p.parts.reverse.dropWhile (· = "."))).map fun parts =>
    { p with parts := parts.reverse, hasSlash := false }

end Path

end SayScript
