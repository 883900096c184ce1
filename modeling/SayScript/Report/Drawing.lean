import SayScript.Report.Basic
import SayScript.Text.Lines

/-! # Drawn reports

    A report as plain text: a headline, and, if there are labels, the lines
    they point at in a frame, each label with a line under the text it
    covers and a line that leads to its message.  Lines between those with
    labels are left out.

    A label is drawn only under a line that holds all of it.  One that lies
    past the end of the source is not drawn. -/

namespace SayScript

namespace Drawing

/-- The text made of `n` times the same character. -/
def repeated (n : Nat) (c : Char) : String :=
  String.ofList (List.replicate n c)

/-! ## Source lines -/

/-- A line of the source with its line end, its place among the lines and
    the offset of its first character. -/
structure SourceLine where
  text : List Char
  index : Nat
  start : Nat
  deriving DecidableEq, Repr

/-- The offset just past the line. -/
def SourceLine.stop (l : SourceLine) : Nat :=
  l.start + l.text.length

/-- The lines of a source with their line ends.  There is always one. -/
def fullLines (source : List Char) : List (List Char) :=
  let segments := source.splitOn '\n'
  let ended := segments.dropLast.map (· ++ ['\n'])
  match segments.getLast? with
  | some (c :: cs) => ended ++ [c :: cs]
  | _ => if ended.isEmpty then [[]] else ended

/-- Places lines one after the other, the first at the given index and
    offset. -/
def place (index start : Nat) : List (List Char) → List SourceLine
  | [] => []
  | text :: rest =>
    { text, index, start } :: place (index + 1) (start + text.length) rest

/-- The lines of a source. -/
def sourceLines (source : List Char) : List SourceLine :=
  place 0 0 (fullLines source)

/-- The last of the lines that start at or before an offset. -/
def lineAt (ls : List SourceLine) (offset : Nat) : SourceLine :=
  ls.foldl (fun found l => if l.start ≤ offset then l else found)
    { text := [], index := 0, start := 0 }

/-! ## Columns -/

/-- The width of the character at a column: a tab reaches to the next
    multiple of four, counted in characters. -/
def width (text : List Char) (column : Nat) : Nat :=
  if text[column]? = some '\t' then (column / 4 + 1) * 4 - column else 1

/-- The text as it is drawn: every blank is drawn as spaces, as many as it is
    wide. -/
def drawText (text : List Char) : String :=
  String.ofList (text.zipIdx.flatMap fun (c, column) =>
    if Text.isBlank c then List.replicate (width text column) ' ' else [c])

/-- Draws the columns from 0 to one past `stop`, each as a character followed
    by as many of a second one as fill its width. -/
def drawColumns (text : List Char) (stop : Nat) (cell : Nat → Char × Char) :
    String :=
  String.ofList ((List.range (stop + 2)).flatMap fun column =>
    (cell column).1 ::
      List.replicate (width text column - 1) (cell column).2)

/-! ## Labels -/

/-- The two lines under the text for one label, which covers the columns
    from `start` up to `stop`.  The covered text is underlined once, for the
    first label. -/
def drawLabel (margin : String) (text : List Char) (start stop : Nat)
    (isFirst : Bool) (message : String) : List String :=
  let middle := (start + stop) / 2
  let under := fun column =>
    if column = middle then if isFirst then ('┬', '─') else ('│', ' ')
    else if isFirst && start ≤ column && column < stop then ('─', '─')
    else (' ', ' ')
  let lead := fun column =>
    if column < middle then (' ', ' ')
    else if column = middle then ('╰', '─')
    else ('─', '─')
  [margin ++ " " ++ drawColumns text stop under,
   margin ++ " " ++ drawColumns text stop lead ++ " " ++ message]

/-- The labels that lie within a line. -/
def labelsOf (labels : List Label) (l : SourceLine) : List Label :=
  labels.filter fun label =>
    l.start ≤ label.span.start && label.span.stop ≤ l.stop

/-- The drawing of a line with its labels, if it has any. -/
def drawLine? (margin : String) (digits : Nat) (labels : List Label)
    (l : SourceLine) : Option (List String) :=
  match labelsOf labels l with
  | [] => none
  | first :: others =>
    let text := Text.trimEnd l.text
    let number := toString (l.index + 1)
    let draw := fun isFirst (label : Label) =>
      drawLabel margin text (label.span.start - l.start)
        (label.span.stop - l.start) isFirst label.message
    some ((" " ++ repeated (digits - number.length) ' ' ++ number ++ " │ " ++
        drawText text) ::
      draw true first ++ others.flatMap (draw false))

/-- Puts the drawings of lines together.  A run of lines without a drawing
    is one empty line. -/
def joinLines (margin : String) (afterGap : Bool) :
    List (Option (List String)) → List String
  | [] => []
  | some drawing :: rest => drawing ++ joinLines margin false rest
  | none :: rest =>
    if afterGap then joinLines margin true rest
    else (margin ++ " ") :: joinLines margin true rest

/-! ## Notes -/

/-- A titled text below the source, its further lines under the first. -/
def drawNote (margin title text : String) : List String :=
  (margin ++ " ") ::
    match (Text.lines text.toList).map String.ofList with
    | [] => []
    | first :: others =>
      (margin ++ " " ++ title ++ first) ::
        others.map (margin ++ " " ++ repeated title.length ' ' ++ ·)

/-- The notes, numbered if there are several. -/
def drawNotes (margin : String) : List String → List String
  | [] => []
  | [note] => drawNote margin "Note: " note
  | notes => (notes.zipIdx 1).flatMap fun (note, number) =>
      drawNote margin s!"Note {number}: " note

end Drawing

namespace Report

open Drawing

/-- The first line of a drawn report. -/
def headline (r : Report) : String :=
  "[" ++ r.code ++ repeated (2 - r.code.length) ' ' ++ "] Error: error[" ++
    r.stage.name ++ ":" ++ r.code ++ "]: " ++ r.message

/-- The lines after the headline, for the labels `first :: others`. -/
def frame (r : Report) (first : Label) (others : List Label) : List String :=
  let source := sourceLines r.source.toList
  let labels := (first :: others).map fun label =>
    { label with span := label.span.visible }
  let start := (others.map (·.span.start)).foldl min first.span.start
  let stop := (labels.map (·.span.stop)).foldl max 0
  let top := (lineAt source start).index
  let bottom := (lineAt source (max (stop - 1) start)).index
  let digits := (toString (bottom + 1)).length
  let margin := repeated (digits + 2) ' ' ++ "│"
  let place := lineAt source first.span.start
  let shown := (source.drop top).take (bottom + 1 - top)
  (repeated (digits + 2) ' ' ++ "╭─[ " ++ r.fileId ++
      s!":{place.index + 1}:{first.span.start - place.start + 1} ]") ::
    margin ::
    joinLines margin false (shown.map (drawLine? margin digits labels)) ++
    (match r.help with
      | some help => drawNote margin "Help: " help
      | none => []) ++
    drawNotes margin r.notes ++
    [repeated (digits + 2) '─' ++ "╯"]

/-- The report as plain text.  Notes and help belong to the frame, so without
    labels they are not shown. -/
def draw (r : Report) : String :=
  let rows := match r.labels with
    | [] => [r.headline]
    | first :: others => r.headline :: r.frame first others
  String.ofList (Text.trimEnd ("\n".intercalate rows).toList)

end Report

end SayScript
