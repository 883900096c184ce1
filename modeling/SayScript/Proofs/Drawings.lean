import Mathlib.Data.List.Infix
import SayScript.Proofs.Reports
import SayScript.Report.Drawing

/-! # Which messages a drawing shows

    A label is drawn under a line that holds all of it.  The span of a line
    that says something lies in that line and in no other, so the message of
    its label is in the drawing.

    A label on a blank line has the empty span at the end of the source.  To
    be seen, such a span is made one character long, and then it reaches past
    the end of every line.  It belongs to none of them, and the drawing is the
    same whatever the message of the label is.

    Notes stand in the frame below the lines, so they are drawn whenever there
    is a label, and only then. -/

namespace SayScript

/-! ## Rows of text -/

namespace Text

/-- The last part ends a text, and all others have a separator after them. -/
theorem intercalate_concat (separator : Char) (init : List (List Char))
    (last : List Char) :
    [separator].intercalate (init ++ [last]) =
      init.flatMap (· ++ [separator]) ++ last := by
  induction init with
  | nil => simp
  | cons first rest ih =>
    rw [List.cons_append, List.intercalate_cons_of_ne_nil (by simp), ih]
    simp

theorem trimEnd_concat {c : Char} (cs : List Char) (hc : ¬ isBlank c) :
    trimEnd (cs ++ [c]) = cs ++ [c] := by
  simp [trimEnd, hc]

/-- Each line of a text is made of characters of the text. -/
theorem mem_of_mem_lines {text line : List Char} {c : Char}
    (hline : line ∈ lines text) (hc : c ∈ line) : c ∈ text := by
  have hsegment : ∀ segment ∈ text.splitOn '\n', c ∈ segment → c ∈ text := by
    intro segment hmem hc
    obtain ⟨i, hi⟩ := List.mem_iff_getElem?.mp hmem
    obtain ⟨before, after, hplace⟩ := exists_isSegment hi
    rw [hplace.text_eq]
    exact List.mem_append_right _ (List.mem_append_left _ hc)
  rcases List.mem_append.mp hline with hline | hline
  · obtain ⟨segment, hmem, rfl⟩ := List.mem_map.mp hline
    apply hsegment segment (List.mem_of_mem_dropLast hmem)
    unfold dropReturn at hc
    split at hc
    · exact List.mem_of_mem_dropLast hc
    · exact hc
  · have hlast := (List.mem_filter.mp hline).1
    exact hsegment line (List.mem_of_getLast? (Option.mem_toList.mp hlast)) hc

end Text

namespace Drawing

/-! ## Source lines -/

section Place

variable {texts : List (List Char)} {index start k offset : Nat}
  {l : SourceLine}

theorem getElem?_place (h : texts[k]? = some l.text)
    (hindex : l.index = index + k)
    (hstart : l.start = start + (texts.take k).flatten.length) :
    (place index start texts)[k]? = some l := by
  induction texts generalizing index start k with
  | nil => cases h
  | cons text rest ih =>
    cases k with
    | zero =>
      cases l
      simp_all [place]
    | succ k =>
      apply ih h
      · omega
      · rw [hstart, List.take_succ_cons, List.flatten_cons, List.length_append]
        omega

/-- Lines lie one after the other, and end where the source does. -/
theorem bounds_of_mem_place (h : l ∈ place index start texts) :
    start ≤ l.start ∧ l.stop ≤ start + texts.flatten.length := by
  induction texts generalizing index start with
  | nil => cases h
  | cons text rest ih =>
    rw [List.flatten_cons, List.length_append]
    rcases List.mem_cons.mp h with rfl | h
    · show start ≤ start ∧ start + text.length ≤ _
      omega
    · obtain ⟨hstart, hstop⟩ := ih h
      omega

/-- Lines that start past the offset do not change what was found. -/
theorem foldl_of_past {ls : List SourceLine} (found : SourceLine)
    (h : ∀ l ∈ ls, offset < l.start) :
    ls.foldl (fun found l => if l.start ≤ offset then l else found) found =
      found := by
  induction ls with
  | nil => rfl
  | cons l ls ih =>
    have hl : ¬ l.start ≤ offset := Nat.not_le_of_lt (h l List.mem_cons_self)
    rw [List.foldl_cons, if_neg hl]
    exact ih fun l hmem => h l (List.mem_cons_of_mem _ hmem)

/-- The line that is found for an offset is the one that holds it. -/
theorem lineAt_place (h : (place index start texts)[k]? = some l)
    (hstart : l.start ≤ offset) (hstop : offset < l.stop) :
    lineAt (place index start texts) offset = l := by
  unfold lineAt
  -- whatever was found before the line is given up for it
  generalize ({ text := [], index := 0, start := 0 } : SourceLine) = found
  induction texts generalizing index start k found with
  | nil => cases h
  | cons text rest ih =>
    cases k with
    | succ k => exact ih h _
    | zero =>
      cases h
      rw [place, List.foldl_cons, if_pos hstart]
      apply foldl_of_past
      intro l' hl'
      have hle := (bounds_of_mem_place hl').1
      have hlt : offset < start + text.length := hstop
      omega

end Place

/-- The lines with their ends are the segments between line feeds, all but
    the last with a line feed.  The last is left out if it is empty, unless
    there is no other. -/
theorem exists_fullLines_eq (source : List Char) :
    ∃ init last, source.splitOn '\n' = init ++ [last] ∧
      fullLines source = init.map (· ++ ['\n']) ++
        if last = [] ∧ init ≠ [] then [] else [last] := by
  obtain ⟨init, last, hsegments⟩ : ∃ init last,
      source.splitOn '\n' = init ++ [last] :=
    ⟨_, _, (List.dropLast_concat_getLast (List.splitOn_ne_nil _ _)).symm⟩
  refine ⟨init, last, hsegments, ?_⟩
  simp only [fullLines, hsegments, List.dropLast_concat, List.getLast?_concat]
  cases last with
  | cons c cs => simp
  | nil => cases init <;> simp

/-- The lines with their ends are the whole source. -/
theorem flatten_fullLines (source : List Char) :
    (fullLines source).flatten = source := by
  obtain ⟨init, last, hsegments, hlines⟩ := exists_fullLines_eq source
  have hlast : (if last = [] ∧ init ≠ [] then [] else [last]).flatten =
      last := by
    split
    · rename_i h
      rw [h.1]
      rfl
    · simp
  rw [hlines, List.flatten_append, hlast, ← List.flatMap_def,
    ← Text.intercalate_concat, ← hsegments]
  exact List.intercalate_splitOn '\n'

theorem length_flatten_ended (segments : List (List Char)) :
    (segments.map (· ++ ['\n'])).flatten.length =
      segments.flatten.length + segments.length := by
  induction segments with
  | nil => rfl
  | cons first rest ih =>
    simp only [List.map_cons, List.flatten_cons, List.length_append, ih,
      List.length_cons, List.length_nil]
    omega

/-- A segment between line feeds that is not empty is a line, but for its
    end. -/
theorem exists_sourceLine {source segment : List Char} {n : Nat}
    (h : (source.splitOn '\n')[n]? = some segment) (hsolid : segment ≠ []) :
    ∃ l, (sourceLines source)[n]? = some l ∧ l.index = n ∧
      l.start = ((source.splitOn '\n').take n).flatten.length + n ∧
      segment <+: l.text := by
  obtain ⟨init, last, hsegments, hlines⟩ := exists_fullLines_eq source
  rw [hsegments] at h ⊢
  have hle : n ≤ init.length := by
    have := (List.getElem?_eq_some_iff.mp h).1
    rw [List.length_append, List.length_singleton] at this
    omega
  -- the lines before it have a line feed each
  have hbefore : ((fullLines source).take n).flatten.length =
      ((init ++ [last]).take n).flatten.length + n := by
    rw [hlines, List.take_append_of_le_length (by rwa [List.length_map]),
      List.take_append_of_le_length hle, ← List.map_take,
      length_flatten_ended, List.length_take, Nat.min_eq_left hle]
  obtain ⟨rest, hline⟩ : ∃ rest,
      (fullLines source)[n]? = some (segment ++ rest) := by
    rw [hlines]
    by_cases hlt : n < init.length
    · rw [List.getElem?_append_left hlt] at h
      rw [List.getElem?_append_left (by rwa [List.length_map]),
        List.getElem?_map, h]
      exact ⟨['\n'], rfl⟩
    · -- the last segment, which is not left out as it is not empty
      obtain rfl : n = init.length := by omega
      rw [List.getElem?_concat_length] at h
      cases h
      rw [if_neg (fun hempty => hsolid hempty.1)]
      exact ⟨[], by simp⟩
  refine ⟨⟨segment ++ rest, n, _⟩,
    getElem?_place hline (Nat.zero_add n).symm ?_, rfl, hbefore,
    List.prefix_append _ _⟩
  exact (Nat.zero_add _).symm

/-! ## Labels and lines -/

/-- The span is not empty and lies in the line. -/
structure Holds (l : SourceLine) (span : Span) : Prop where
  start_le : l.start ≤ span.start
  lt_stop : span.start < span.stop
  stop_le : span.stop ≤ l.stop

/-- The span of a line that says something lies in a line of its number. -/
theorem exists_holds_ofLine {source line : List Char} {n : Nat}
    (hn : n + 1 < UInt32.size)
    (h : (Text.lines source)[n]? = some line) (hsolid : Text.trim line ≠ []) :
    ∃ l, (sourceLines source)[l.index]? = some l ∧
      Holds l (.ofLine source (n + 1)) := by
  obtain ⟨segment, hsegment, htrim⟩ := Text.exists_segment h
  rw [← htrim] at hsolid
  have hne : segment ≠ [] := by
    rintro rfl
    exact hsolid rfl
  obtain ⟨l, hl, hindex, hstart, hfront⟩ := exists_sourceLine hsegment hne
  rw [← hindex] at hl
  refine ⟨l, hl, ?_⟩
  -- the trimmed text lies in the segment, which lies in the line
  obtain ⟨blanks, hblanks⟩ := Text.exists_eq_trim_append segment
  have hlength := congrArg List.length hblanks
  simp only [List.length_append] at hlength
  have hpos : 0 < (Text.trim segment).length := List.length_pos_iff.mpr hsolid
  have hle := hfront.length_le
  have hspan : Span.ofLine source (n + 1) =
      ⟨l.start + (segment.takeWhile Text.isBlank).length,
        l.start + (segment.takeWhile Text.isBlank).length +
          (Text.trim segment).length⟩ := by
    rw [Span.ofLine_succ source hn]
    simp only [Span.ofPlace, hsegment, if_neg hsolid, hstart]
  rw [hspan]
  refine ⟨?_, ?_, ?_⟩ <;> simp only [SourceLine.stop] <;> omega

/-- The span at the end of the source reaches past the end of each line. -/
theorem stop_lt_visible_atEnd {source : List Char}
    (hlength : source.length < Span.maxOffset) :
    ∀ l ∈ sourceLines source, l.stop < (Span.atEnd source).visible.stop := by
  intro l hl
  have hstop := (bounds_of_mem_place hl).2
  rw [flatten_fullLines, Nat.zero_add] at hstop
  have hvisible : (Span.atEnd source).visible.stop = source.length + 1 := by
    unfold Span.visible Span.atEnd
    rw [if_pos (Nat.le_refl _)]
    exact Nat.min_eq_left hlength
  omega

section DrawLine

variable {l : SourceLine} {label : Label} (margin : String) (digits : Nat)

/-- The message of a label that lies in a line ends a row under the line. -/
theorem exists_drawLine?_of_holds (h : Holds l label.span) :
    ∃ rows, drawLine? margin digits [label] l = some rows ∧
      ∃ row ∈ rows, label.message.toList <:+ row.toList := by
  have hlabels : labelsOf [label] l = [label] := by
    simp [labelsOf, h.start_le, h.stop_le]
  rw [drawLine?, hlabels]
  -- the rows are the line, what underlines it, and what leads to the message
  refine ⟨_, rfl, _, .tail _ (.tail _ (.head _)), ?_⟩
  rw [String.toList_append]
  exact List.suffix_append _ _

theorem drawLine?_of_past (h : l.stop < label.span.stop) :
    drawLine? margin digits [label] l = none := by
  have hlabels : labelsOf [label] l = [] := by
    simp only [labelsOf, List.filter_eq_nil_iff, List.mem_singleton]
    rintro _ rfl
    simp
    omega
  rw [drawLine?, hlabels]

end DrawLine

theorem eq_of_mem_joinLines {α : Type} {margin row : String} {ls : List α}
    {afterGap : Bool}
    (h : row ∈ joinLines margin afterGap (ls.map fun _ => none)) :
    row = margin ++ " " := by
  induction ls generalizing afterGap with
  | nil => cases h
  | cons l ls ih =>
    cases afterGap with
    | true => exact ih h
    | false =>
      rcases List.mem_cons.mp h with heq | h
      · exact heq
      · exact ih h

/-- The rows of a note have no characters but those of the margin, the title
    and the text, and blanks. -/
theorem not_mem_drawNote {margin title text : String} {c : Char}
    (hmargin : c ∉ margin.toList) (htitle : c ∉ title.toList)
    (htext : c ∉ text.toList) (hblank : c ≠ ' ') :
    ∀ row ∈ drawNote margin title text, c ∉ row.toList := by
  have hlines : ∀ line ∈ (Text.lines text.toList).map String.ofList,
      c ∉ line.toList := by
    intro line hline hc
    obtain ⟨cs, hcs, rfl⟩ := List.mem_map.mp hline
    rw [String.toList_ofList] at hc
    exact htext (Text.mem_of_mem_lines hcs hc)
  rw [drawNote, List.forall_mem_cons]
  refine ⟨by simp [hmargin, hblank], ?_⟩
  split
  · exact List.forall_mem_nil _
  · rename_i first others hcons
    rw [hcons, List.forall_mem_cons] at hlines
    rw [List.forall_mem_cons]
    refine ⟨by simp [hmargin, hblank, htitle, hlines.1], ?_⟩
    intro row hrow
    obtain ⟨line, hline, rfl⟩ := List.mem_map.mp hrow
    simp [repeated, hmargin, hblank, hlines.2 line hline]

/-- Each line of a note ends one of its rows. -/
theorem exists_row_of_mem_lines {margin title text : String} {line : List Char}
    (h : line ∈ Text.lines text.toList) :
    ∃ row ∈ drawNote margin title text, line <:+ row.toList := by
  have hmem := List.mem_map_of_mem h (f := String.ofList)
  rw [drawNote]
  split
  · rename_i hnil
    rw [hnil] at hmem
    cases hmem
  · rename_i first others hcons
    rw [hcons] at hmem
    have hsuffix : ∀ start, line <:+ (start ++ String.ofList line).toList := by
      intro start
      rw [String.toList_append, String.toList_ofList]
      exact List.suffix_append _ _
    rcases List.mem_cons.mp hmem with rfl | hmem
    · exact ⟨_, .tail _ (.head _), hsuffix _⟩
    · exact ⟨_, .tail _ (.tail _ (List.mem_map_of_mem hmem)), hsuffix _⟩

theorem exists_drawNote_subset {notes : List String} {note : String}
    (h : note ∈ notes) (margin : String) :
    ∃ title, drawNote margin title note ⊆ drawNotes margin notes := by
  match notes, h with
  | [_], .head _ => exact ⟨"Note: ", fun row hrow => hrow⟩
  | _ :: _ :: _, h =>
    obtain ⟨i, hi⟩ := List.mem_iff_getElem?.mp h
    refine ⟨"Note " ++ toString (i + 1) ++ ": ", fun row hrow => ?_⟩
    refine List.mem_flatMap.mpr ⟨(note, i + 1), ?_, hrow⟩
    rw [List.mk_mem_zipIdx_iff_le_and_getElem?_sub]
    exact ⟨Nat.le_add_left 1 i, hi⟩

/-! ## Frames with one label

    All of the frame but the rows of the lines depends on the span of the
    label alone. -/

section Frame

variable (source : List SourceLine) (span : Span)

/-- The line of the end of the span. -/
def lastLine : SourceLine :=
  lineAt source (max (span.visible.stop - 1) span.start)

/-- The lines from the start to the end of the span. -/
def shownLines : List SourceLine :=
  let top := (lineAt source span.start).index
  (source.drop top).take ((lastLine source span).index + 1 - top)

/-- The width of line numbers. -/
def numberWidth : Nat :=
  (toString ((lastLine source span).index + 1)).length

/-- What the rows below the first begin with. -/
def rowMargin : String :=
  repeated (numberWidth source span + 2) ' ' ++ "│"

/-- The rows of the lines. -/
def lineRows (message : String) : List String :=
  joinLines (rowMargin source span) false
    ((shownLines source span).map
      (drawLine? (rowMargin source span) (numberWidth source span)
        [⟨span.visible, message⟩]))

variable {source span}

/-- No line is drawn for a label that reaches past the end of each. -/
theorem lineRows_of_past (h : ∀ l ∈ source, l.stop < span.visible.stop)
    (message : String) :
    lineRows source span message =
      joinLines (rowMargin source span) false
        ((shownLines source span).map fun _ => none) := by
  have hnone : ∀ l ∈ shownLines source span,
      drawLine? (rowMargin source span) (numberWidth source span)
        [⟨span.visible, message⟩] l = none := by
    intro l hl
    apply drawLine?_of_past
    exact h l (List.mem_of_mem_drop (List.mem_of_mem_take hl))
  rw [lineRows, List.map_congr_left hnone]

end Frame

/-- The characters of frames, but for digits. -/
def frameChars : List Char :=
  ['\n', ' ', '╭', '─', '[', ':', ']', '│', '╯', 'H', 'e', 'l', 'p']

end Drawing

namespace Report

open Drawing

/-- The first row of a frame: where the span starts. -/
def placeRow (r : Report) (span : Span) : String :=
  let source := sourceLines r.source.toList
  let first := lineAt source span.start
  repeated (numberWidth source span + 2) ' ' ++ "╭─[ " ++ r.fileId ++
    (":" ++ toString (first.index + 1) ++ ":" ++
      toString (span.start - first.start + 1) ++ " ]")

/-- The rows below the lines. -/
def noteRows (r : Report) (span : Span) : List String :=
  let margin := rowMargin (sourceLines r.source.toList) span
  (match r.help with
    | some help => drawNote margin "Help: " help
    | none => []) ++
  drawNotes margin r.notes

theorem frame_singleton (r : Report) (span : Span) (message : String) :
    let source := sourceLines r.source.toList
    r.frame ⟨span, message⟩ [] =
      r.placeRow span :: rowMargin source span ::
        lineRows source span message ++ r.noteRows span ++
        [repeated (numberWidth source span + 2) '─' ++ "╯"] := by
  intro source
  simp only [frame, List.map_cons, List.map_nil, List.foldl_cons,
    List.foldl_nil, Nat.zero_max, noteRows, List.append_assoc]
  rfl

/-- The message of a label that lies in a line is in the frame. -/
theorem exists_row_of_holds {r : Report} {span : Span} {l : SourceLine}
    (hline : (sourceLines r.source.toList)[l.index]? = some l)
    (h : Holds l span) (message : String) :
    ∃ row ∈ r.frame ⟨span, message⟩ [], message.toList <:+ row.toList := by
  obtain ⟨hstart, hlt, hstop⟩ := h
  have hvisible : span.visible = span := by
    rw [Span.visible, if_neg (Nat.not_le_of_lt hlt)]
  -- both ends of the label are in the line, so no other line is shown
  have hfirst : lineAt (sourceLines r.source.toList) span.start = l :=
    lineAt_place hline hstart (by omega)
  have hlast : lastLine (sourceLines r.source.toList) span = l := by
    rw [lastLine, hvisible]
    exact lineAt_place hline (by omega) (by omega)
  have hshown : shownLines (sourceLines r.source.toList) span = [l] := by
    rw [shownLines, hfirst, hlast, Nat.add_sub_cancel_left, List.take_one,
      List.head?_drop, hline]
    rfl
  have hholds : Holds l (Label.mk span message).span := ⟨hstart, hlt, hstop⟩
  obtain ⟨rows, hrows, row, hrow, hsuffix⟩ := exists_drawLine?_of_holds
    (rowMargin (sourceLines r.source.toList) span)
    (numberWidth (sourceLines r.source.toList) span) hholds
  have hmem : row ∈ lineRows (sourceLines r.source.toList) span message := by
    rw [lineRows, hshown, hvisible, List.map_singleton, hrows]
    exact List.mem_append_left _ hrow
  refine ⟨row, ?_, hsuffix⟩
  rw [frame_singleton]
  exact List.mem_append_left _ (List.mem_append_left _ (.tail _ (.tail _ hmem)))

/-! ## Drawings -/

section Draw

variable {r : Report} {label : Label} {row : String} {c : Char}

/-- The rows of a drawing, of which the last ends in a corner. -/
theorem exists_draw_eq (h : r.labels = [label]) :
    ∃ rows corner, r.headline :: r.frame label [] = rows ++ [corner ++ "╯"] ∧
      r.draw.toList = rows.flatMap (fun row => row.toList ++ ['\n']) ++
        (corner ++ "╯").toList := by
  obtain ⟨rows, corner, hrows⟩ : ∃ rows corner,
      r.headline :: r.frame label [] = rows ++ [corner ++ "╯"] := by
    rw [show label = ⟨label.span, label.message⟩ from rfl, frame_singleton]
    exact ⟨r.headline :: _, _, rfl⟩
  refine ⟨rows, corner, hrows, ?_⟩
  -- nothing is trimmed, as the corner is not blank
  have hcorner : (corner ++ "╯").toList = corner.toList ++ ['╯'] := by simp
  simp only [draw, h, String.toList_ofList]
  rw [hrows, String.toList_intercalate, List.map_append, List.map_singleton,
    show "\n".toList = ['\n'] from rfl, Text.intercalate_concat, hcorner,
    ← List.append_assoc, Text.trimEnd_concat _ (by decide), List.flatMap_map,
    List.append_assoc]

theorem infix_draw (h : r.labels = [label]) (hrow : row ∈ r.frame label []) :
    row.toList <:+: r.draw.toList := by
  obtain ⟨rows, corner, hrows, hdraw⟩ := exists_draw_eq h
  have hmem : row ∈ rows ++ [corner ++ "╯"] := by
    rw [← hrows]
    exact List.mem_cons_of_mem _ hrow
  rw [hdraw]
  rcases List.mem_append.mp hmem with hmem | hmem
  · obtain ⟨above, below, rfl⟩ := List.append_of_mem hmem
    simp only [List.flatMap_append, List.flatMap_cons, List.append_assoc]
    exact ⟨_, _, List.append_assoc _ _ _⟩
  · rw [List.mem_singleton.mp hmem]
    exact (List.suffix_append _ _).isInfix

theorem exists_row_of_mem_draw (h : r.labels = [label])
    (hc : c ∈ r.draw.toList) :
    c = '\n' ∨ ∃ row ∈ r.headline :: r.frame label [], c ∈ row.toList := by
  obtain ⟨rows, corner, hrows, hdraw⟩ := exists_draw_eq h
  rw [hdraw, List.mem_append] at hc
  rw [hrows]
  rcases hc with hc | hc
  · obtain ⟨row, hrow, hc⟩ := List.mem_flatMap.mp hc
    rcases List.mem_append.mp hc with hc | hc
    · exact .inr ⟨row, List.mem_append_left _ hrow, hc⟩
    · exact .inl (List.mem_singleton.mp hc)
  · exact .inr ⟨_, List.mem_append_right _ (.head _), hc⟩

/-- The drawing does not show the message of a label that reaches past the end
    of each line. -/
theorem draw_eq_of_past {span : Span} {message : String}
    (h : r.labels = [⟨span, message⟩])
    (hpast : ∀ l ∈ sourceLines r.source.toList, l.stop < span.visible.stop)
    (other : String) :
    { r with labels := [⟨span, other⟩] }.draw = r.draw := by
  have hframe : { r with labels := [⟨span, other⟩] }.frame ⟨span, other⟩ [] =
      r.frame ⟨span, message⟩ [] := by
    rw [frame_singleton, frame_singleton, lineRows_of_past hpast,
      lineRows_of_past hpast]
    rfl
  simp only [draw, h, hframe]
  rfl

/-- If the label reaches past the end of each line, the drawing has no
    characters but digits, those of the frame, and those of the headline, the
    name of the source and the help. -/
theorem not_mem_draw_of_past {span : Span} {message : String}
    (h : r.labels = [⟨span, message⟩]) (hnotes : r.notes = [])
    (hpast : ∀ l ∈ sourceLines r.source.toList, l.stop < span.visible.stop)
    (hdigit : ¬ c.isDigit) (hplain : c ∉ frameChars)
    (hheadline : c ∉ r.headline.toList) (hfileId : c ∉ r.fileId.toList)
    (hhelp : ∀ help ∈ r.help, c ∉ help.toList) : c ∉ r.draw.toList := by
  have hnumber : ∀ n, c ∉ Nat.toDigits 10 n := by
    intro n
    simpa using Text.not_mem_toString hdigit n
  simp only [frameChars, List.mem_cons, List.not_mem_nil, or_false,
    not_or] at hplain
  have hmargin : c ∉ (rowMargin (sourceLines r.source.toList) span).toList := by
    simp [rowMargin, repeated, hplain]
  have hplace : c ∉ (r.placeRow span).toList := by
    simp [placeRow, repeated, hplain, hnumber, hfileId]
  -- no line is drawn, so that only gaps are left of the lines
  have hline : ∀ row ∈ lineRows (sourceLines r.source.toList) span message,
      c ∉ row.toList := by
    intro row hrow
    rw [lineRows_of_past hpast] at hrow
    rw [eq_of_mem_joinLines hrow]
    simp [hmargin, hplain]
  have hnote : ∀ row ∈ r.noteRows span, c ∉ row.toList := by
    rw [noteRows, hnotes, drawNotes, List.append_nil]
    cases hrest : r.help with
    | none => exact List.forall_mem_nil _
    | some help =>
      exact not_mem_drawNote hmargin (by simp [hplain]) (hhelp help hrest)
        hplain.2.1
  have hcorner : c ∉ (repeated (numberWidth (sourceLines r.source.toList)
      span + 2) '─' ++ "╯").toList := by
    simp [repeated, hplain]
  have hrows : ∀ row ∈ r.headline :: r.frame ⟨span, message⟩ [],
      c ∉ row.toList := by
    rw [frame_singleton, List.forall_mem_cons, List.forall_mem_append,
      List.forall_mem_append, List.forall_mem_cons, List.forall_mem_cons,
      List.forall_mem_singleton]
    exact ⟨hheadline, ⟨⟨hplace, hmargin, hline⟩, hnote⟩, hcorner⟩
  intro hc
  rcases exists_row_of_mem_draw h hc with heq | ⟨row, hrow, hc⟩
  · exact hplain.1 heq
  · exact hrows row hrow hc

/-- Every line of a note can be read in the drawing, whatever notes there are
    before it. -/
theorem infix_draw_withNote {note : String} {line : List Char}
    (h : r.labels = [label]) (hline : line ∈ Text.lines note.toList) :
    line <:+: (r.withNote note).draw.toList := by
  obtain ⟨title, hsubset⟩ := exists_drawNote_subset
    (List.mem_append_right r.notes (List.mem_singleton_self note))
    (rowMargin (sourceLines r.source.toList) label.span)
  obtain ⟨row, hrow, hsuffix⟩ := exists_row_of_mem_lines hline
  have hframe : row ∈ (r.withNote note).frame label [] := by
    rw [show label = ⟨label.span, label.message⟩ from rfl, frame_singleton]
    refine List.mem_append_left _ (List.mem_append_right _ ?_)
    exact List.mem_append_right _ (hsubset hrow)
  exact hsuffix.isInfix.trans (infix_draw h hframe)

/-- Without a label there is no frame, and a note is not drawn. -/
theorem draw_withNote_of_labels_eq_nil (h : r.labels = []) (note : String) :
    (r.withNote note).draw = r.draw := by
  simp only [draw, withNote, h]
  rfl

end Draw

end Report

/-! ## Rejected scripts -/

namespace Rejection

open Drawing

variable {limit : Nat} {script : String} {e : Rejection}

/-- The report on a stage, before there is a script. -/
def stageReport : Stage → Report
  | .tokenize =>
    Report.new "HERC-TOKENIZE-001" .tokenize "tokenization failed"
  | .parse => Report.new "HERC-PARSE-001" .parse "parse failed"
  | .internal => Report.new "HERC-ICE-001" .internal "internal compiler error"

/-- All fields of the report on a rejection. -/
theorem report_eq (e : Rejection) (source : String) (path : Option String) :
    e.report source path =
      { stageReport e.stage with
        fileId := Report.fileIdOf path
        source
        labels := [⟨.ofLine source.toList e.line, e.faultMessage⟩]
        notes := []
        help := e.help? } := by
  rw [← e.labels_report source path]
  unfold report
  cases e.stage <;> cases e.help? <;> rfl

/-- The message about a line that says something is drawn. -/
theorem infix_draw_of_solid {line : List Char} {n : Nat}
    (hn : e.line = n + 1) (hplace : n + 1 < UInt32.size) (hline : (Text.lines script.toList)[n]? = some line)
    (hsolid : Text.trim line ≠ []) (path : Option String) :
    e.faultMessage.toList <:+: (e.report script path).draw.toList := by
  have hsource : (e.report script path).source = script := by rw [report_eq]
  have hlabels := e.labels_report script path
  rw [hn] at hlabels
  obtain ⟨l, hl, hholds⟩ := exists_holds_ofLine hplace hline hsolid
  rw [← hsource] at hl
  obtain ⟨row, hrow, hsuffix⟩ :=
    Report.exists_row_of_holds hl hholds e.faultMessage
  exact hsuffix.isInfix.trans (Report.infix_draw hlabels hrow)

theorem mem_faultMessage_of_mem_problem {fault : ReadFault} {c : Char}
    (h : c ∈ fault.problem.toList) : c ∈ (read fault).faultMessage.toList := by
  unfold faultMessage ReadFault.message
  rw [String.toList_append]
  exact List.mem_append_right _ h

/-- The message about where a block ends has a letter that nothing else in
    the report has, but for the name of the source. -/
theorem exists_letter (h : e.namesText = false) :
    ∃ c, (¬ c.isDigit ∧ c ∉ frameChars ∧ c ∉ "<memory>".toList) ∧
      c ∈ e.faultMessage.toList ∧
      c ∉ (stageReport e.stage).headline.toList ∧
      ∀ help ∈ e.help?, c ∉ help.toList := by
  cases e with
  | scan f => cases h
  | read fault =>
    cases fault with
    | expected slot found line => cases h
    | unexpected found line => cases h
    | unclosedBlock openedAt line =>
      refine ⟨'v', ⟨by decide, by decide, by decide⟩, ?_, ?_, ?_⟩
      · apply mem_faultMessage_of_mem_problem
        unfold ReadFault.problem
        rw [String.toList_append]
        exact List.mem_append_right _ (by decide)
      · show 'v' ∉ (stageReport .parse).headline.toList
        decide
      · intro help hhelp
        cases hhelp
        rw [String.toList_append, List.mem_append, not_or]
        exact ⟨by decide, Text.not_mem_toString (by decide) _⟩
    | blockLimit limit line =>
      refine ⟨'f', ⟨by decide, by decide, by decide⟩, ?_, ?_, ?_⟩
      · apply mem_faultMessage_of_mem_problem
        unfold ReadFault.problem
        rw [String.toList_append, String.toList_append]
        exact List.mem_append_left _ (List.mem_append_left _ (by decide))
      · show 'f' ∉ (stageReport .internal).headline.toList
        decide
      · intro help hhelp
        cases hhelp
        rw [String.toList_append, String.toList_append, List.mem_append,
          List.mem_append, not_or, not_or]
        exact ⟨⟨by decide, Text.not_mem_toString (by decide) _⟩, by decide⟩

/-- A label at the end of the script is past the end of each of its lines. -/
theorem past_of_length (path : Option String)
    (hlength : script.toList.length < Span.maxOffset) :
    ∀ l ∈ sourceLines (e.report script path).source.toList,
      l.stop < (Span.atEnd script.toList).visible.stop := by
  rw [report_eq]
  exact stop_lt_visible_atEnd hlength

/-- The message about a blank line is not drawn. -/
theorem not_infix_draw_of_blank (hnames : e.namesText = false)
    (hspan : Span.ofLine script.toList e.line = .atEnd script.toList)
    (hlength : script.toList.length < Span.maxOffset) :
    ¬ e.faultMessage.toList <:+: (e.report script none).draw.toList := by
  intro hinside
  obtain ⟨c, ⟨hdigit, hframe, hmemory⟩, hmessage, hheadline, hhelp⟩ :=
    exists_letter hnames
  have hlabels := e.labels_report script none
  rw [hspan] at hlabels
  refine Report.not_mem_draw_of_past hlabels (by rw [report_eq])
    (past_of_length none hlength) hdigit hframe ?_ ?_ ?_
    (hinside.subset hmessage)
  · rw [report_eq]
    exact hheadline
  · rw [report_eq]
    exact hmemory
  · rw [report_eq]
    exact hhelp

/-- **Which messages are drawn.**  Let a script of fewer than 2^32 lines be
    rejected.  The message of the label is in the drawing if the line of the
    fault says something.  Otherwise the line is the last
    one, the fault is about where a block ends, and the message is lost: the
    drawing is the same for any other message, and unless a path brings it in
    the message is not in the drawing. -/
theorem draw_of_compile
    (hlines : (Text.lines script.toList).length < UInt32.size)
    (h : compile limit script = .error e) :
    ∃ line, (Text.lines script.toList)[e.line - 1]? = some line ∧
      (∀ path, (e.report script path).labels.map Label.message =
        [e.faultMessage]) ∧
      (Text.trim line ≠ [] → ∀ path,
        e.faultMessage.toList <:+: (e.report script path).draw.toList) ∧
      (Text.trim line = [] → script.toList.length < Span.maxOffset →
        e.namesText = false ∧
        e.line = (Text.lines script.toList).length ∧
        (∀ path message,
          { e.report script path with
            labels := [⟨.atEnd script.toList, message⟩] }.draw =
              (e.report script path).draw) ∧
        ¬ e.faultMessage.toList <:+: (e.report script none).draw.toList) := by
  have hscript := ofScript_of_compile_error h
  obtain ⟨line, hmem, hnames⟩ := exists_line hlines hscript
  rw [Text.placedLines, List.mk_mem_zipIdx_iff_le_and_getElem?_sub] at hmem
  obtain ⟨hpos, hline⟩ := hmem
  obtain ⟨n, hn⟩ : ∃ n, e.line = n + 1 := Nat.exists_eq_add_one.mpr hpos
  have hplace : n + 1 < UInt32.size := by
    have hlt := (List.getElem?_eq_some_iff.mp hline).1
    omega
  refine ⟨line, hline, ?_, ?_, ?_⟩
  · intro path
    rw [e.labels_report script path]
    rfl
  · intro hsolid path
    rw [hn, Nat.add_sub_cancel] at hline
    exact infix_draw_of_solid hn hplace hline hsolid path
  · intro hblank hlength
    have hspan : Span.ofLine script.toList e.line = .atEnd script.toList := by
      rw [hn, Nat.add_sub_cancel] at hline
      rw [hn]
      exact Span.ofLine_of_blank hplace hline hblank
    rcases exists_line_or_last hlines hscript with ⟨line', hmem, hsolid⟩ |
      ⟨hnames, -, hlast⟩
    · -- there is only one line in this place
      rw [Text.placedLines, List.mk_mem_zipIdx_iff_le_and_getElem?_sub,
        hline] at hmem
      cases hmem.2
      exact absurd hblank hsolid
    · refine ⟨hnames, hlast, ?_, not_infix_draw_of_blank hnames hspan hlength⟩
      intro path message
      have hlabels := e.labels_report script path
      rw [hspan] at hlabels
      exact Report.draw_eq_of_past hlabels (past_of_length path hlength) message

/-- A block left open before a comment, one left open before a blank line, and
    one with too many statements before a blank line. -/
theorem draw_of_compile_endings :
    let noted := "start:\n  # still open\t"
    let unclosed := "start:\nsay\n \t\n"
    let long := "start:\nsay\nsay\n\n"
    (compile 5 noted = .error (.read (.unclosedBlock 1 2)) ∧
      (read (.unclosedBlock 1 2)).faultMessage.toList <:+:
        ((read (.unclosedBlock 1 2)).report noted (some "a")).draw.toList) ∧
    (compile 5 unclosed = .error (.read (.unclosedBlock 1 3)) ∧
      ¬ (read (.unclosedBlock 1 3)).faultMessage.toList <:+:
        ((read (.unclosedBlock 1 3)).report unclosed none).draw.toList) ∧
    compile 1 long = .error (.read (.blockLimit 1 4)) ∧
      ¬ (read (.blockLimit 1 4)).faultMessage.toList <:+:
        ((read (.blockLimit 1 4)).report long none).draw.toList := by
  intro noted unclosed long
  have hnoted : compile 5 noted = .error (.read (.unclosedBlock 1 2)) := by decide +kernel
  have hunclosed : compile 5 unclosed =
      .error (.read (.unclosedBlock 1 3)) := by decide +kernel
  have hlong : compile 1 long = .error (.read (.blockLimit 1 4)) := by decide +kernel
  have hnotedLine : (Text.lines noted.toList)[1]? =
      some "  # still open\t".toList := by decide +kernel
  have hunclosedLine : (Text.lines unclosed.toList)[2]? =
      some " \t".toList := by decide +kernel
  have hlongLine : (Text.lines long.toList)[3]? = some [] := by decide +kernel
  refine ⟨⟨hnoted, ?_⟩, ⟨hunclosed, ?_⟩, hlong, ?_⟩
  · obtain ⟨line, hline, -, hdrawn, -⟩ := draw_of_compile (by decide +kernel) hnoted
    cases hnotedLine.symm.trans hline
    exact hdrawn (by decide) (some "a")
  · obtain ⟨line, hline, -, -, hlost⟩ := draw_of_compile (by decide +kernel) hunclosed
    cases hunclosedLine.symm.trans hline
    exact (hlost (by decide +kernel) (by decide +kernel)).2.2.2
  · obtain ⟨line, hline, -, -, hlost⟩ := draw_of_compile (by decide +kernel) hlong
    cases hlongLine.symm.trans hline
    exact (hlost (by decide +kernel) (by decide +kernel)).2.2.2

/-- The message of the label can be lost: a block left open before a blank
    line. -/
theorem message_not_drawn_before_blank_line :
    let script := "start:\n\n"
    let fault : Rejection := .read (.unclosedBlock 1 2)
    compile 10000 script = .error fault ∧
      (fault.report script none).labels = [⟨⟨8, 8⟩,
        "line 2: block opened at line 1 is never closed with `end`"⟩] ∧
      (fault.report script none).draw = "\n".intercalate
        ["[HERC-PARSE-001] Error: error[parse:HERC-PARSE-001]: parse failed",
          "   ╭─[ <memory>:2:2 ]", "   │", "   │ ", "   │ ",
          "   │ Help: add `end` to close the block opened at line 1",
          "───╯"] ∧
      ¬ fault.faultMessage.toList <:+:
        (fault.report script none).draw.toList := by
  intro script fault
  refine ⟨by decide +kernel, ?_, by decide +kernel, ?_⟩
  · rw [labels_report]
    decide
  · exact not_infix_draw_of_blank rfl (by decide +kernel) (by decide +kernel)

end Rejection

end SayScript
