import Mathlib.Data.List.TakeWhile
import SayScript.Proofs.Spacing
import SayScript.Report.Span

/-! # What the span of a line selects

    A line has a place: so many line feeds stand before it, and it reaches
    from one line feed to the next.  `Text.IsSegment` says so without cutting
    the text, and `List.splitOn` finds the same lines.  The characters before
    a line are those of the lines before it and a line feed for each, which is
    how `Span.ofPlace` counts them.  Offsets count characters, whatever the
    characters are.  `Span.ofLine` goes by the number of the line, which is
    that of one place only as long as the text has fewer than 2^32 lines.

    Scanning cuts lines in another way: a carriage return before a line feed
    belongs to the line end, and a final line feed opens no further line.
    Both differences disappear when lines are trimmed: `exists_segment`. -/

namespace SayScript

namespace Text

/-! ## Blanks at the ends -/

/-- A text is its blanks, what trimming leaves, and blanks again. -/
theorem exists_eq_trim_append (cs : List Char) :
    ∃ blanks, cs = cs.takeWhile isBlank ++ (trim cs ++ blanks) := by
  obtain ⟨blanks, hblanks⟩ := trim_prefix_trimStart cs
  refine ⟨blanks, ?_⟩
  rw [hblanks, trimStart, List.takeWhile_append_dropWhile]

/-- Trimming does not see a blank at the end. -/
theorem trim_concat {c : Char} (cs : List Char) (hc : isBlank c) :
    trim (cs ++ [c]) = trim cs := by
  have hend : ∀ ds : List Char, trimEnd (ds ++ [c]) = trimEnd ds := by
    intro ds
    simp [trimEnd, hc]
  unfold trim trimStart
  rw [List.dropWhile_append]
  split
  · -- nothing but blanks before it
    rename_i hempty
    rw [List.isEmpty_iff.mp hempty]
    simp [hc]
  · exact hend _

theorem trim_dropReturn (line : List Char) :
    trim (dropReturn line) = trim line := by
  unfold dropReturn
  split
  · rename_i hlast
    obtain ⟨cs, rfl⟩ := List.getLast?_eq_some_iff.mp hlast
    rw [List.dropLast_concat, trim_concat cs (by decide)]
  · rfl

/-- Nothing is left of a text by trimming if it is blank, and only then. -/
theorem trim_eq_nil_iff {cs : List Char} :
    trim cs = [] ↔ ∀ c ∈ cs, isBlank c := by
  have hend : trim cs = [] ↔ ∀ c ∈ cs.dropWhile isBlank, isBlank c := by
    simp [trim, trimEnd, trimStart]
  rw [hend]
  constructor
  · intro hrest c hc
    rw [← List.takeWhile_append_dropWhile (p := isBlank) (l := cs),
      List.mem_append] at hc
    rcases hc with hc | hc
    · exact List.mem_takeWhile_imp hc
    · exact hrest c hc
  · intro hall c hc
    exact hall c ((List.dropWhile_suffix isBlank).subset hc)

theorem trim_ne_nil_iff {cs : List Char} :
    trim cs ≠ [] ↔ ∃ c ∈ cs, ¬ isBlank c := by
  simp [trim_eq_nil_iff]

/-- What is left of a line by trimming starts and ends with a character that
    is not blank, if anything is left. -/
theorem exists_ends_trim {cs : List Char} (h : trim cs ≠ []) :
    ∃ first last, (trim cs).head? = some first ∧
      (trim cs).getLast? = some last ∧
      isBlank first = false ∧ isBlank last = false := by
  obtain ⟨first, rest, hcs⟩ := List.exists_cons_of_ne_nil h
  have hfirst : (trim cs).head? = some first := by
    rw [hcs]
    rfl
  have hlast := List.getLast?_eq_some_getLast h
  exact ⟨first, _, hfirst, hlast, isBlank_head?_trim cs first hfirst,
    isBlank_getLast?_trim cs _ hlast⟩

/-- A line says the same as the segment between line feeds in its place. -/
theorem exists_segment {text line : List Char} {i : Nat}
    (h : (lines text)[i]? = some line) :
    ∃ segment, (text.splitOn '\n')[i]? = some segment ∧
      trim segment = trim line := by
  obtain ⟨init, last, hsegments⟩ : ∃ init last,
      text.splitOn '\n' = init ++ [last] :=
    ⟨_, _, (List.dropLast_concat_getLast (List.splitOn_ne_nil _ _)).symm⟩
  have hlines : lines text =
      init.map dropReturn ++ [last].filter fun segment => !segment.isEmpty := by
    simp only [lines, hsegments, List.dropLast_concat, List.getLast?_concat]
    rfl
  rw [hlines, List.getElem?_append, List.length_map] at h
  rw [hsegments, List.getElem?_append]
  by_cases hi : i < init.length
  · rw [if_pos hi, List.getElem?_map] at h
    obtain ⟨segment, hsegment, rfl⟩ := Option.map_eq_some_iff.mp h
    rw [if_pos hi]
    exact ⟨segment, hsegment, (trim_dropReturn segment).symm⟩
  · -- only the last segment is left, if there is a line for it
    rw [if_neg hi, List.filter_cons, List.filter_nil] at h
    rw [if_neg hi]
    split at h
    · exact ⟨line, h, rfl⟩
    · cases h

/-! ## The place of a line -/

/-- The text has `segment` as its line of the given number, between `before`
    and `after`.  Lines are counted from 1, and a line feed alone ends
    them. -/
structure IsSegment (text : List Char) (line : Nat)
    (before segment after : List Char) : Prop where
  text_eq : text = before ++ (segment ++ after)
  line_eq : line = before.count '\n' + 1
  starts : before = [] ∨ before.getLast? = some '\n'
  whole : '\n' ∉ segment
  ends : after = [] ∨ after.head? = some '\n'

/-- There is one segment more than there are line feeds. -/
theorem length_splitOn (text : List Char) :
    (text.splitOn '\n').length = text.count '\n' + 1 := by
  induction text with
  | nil => rfl
  | cons c text ih =>
    rw [List.splitOn_cons_eq_if_modifyHead, List.count_cons]
    split
    · rw [List.length_cons, ih]
    · rw [List.length_modifyHead, ih]

/-- The segments lose the line feeds and nothing else. -/
theorem flatten_splitOn (text : List Char) :
    (text.splitOn '\n').flatten = text.filter (· ≠ '\n') := by
  induction text with
  | nil => rfl
  | cons c text ih =>
    rw [List.splitOn_cons_eq_if_modifyHead, List.filter_cons, ← ih]
    obtain ⟨first, rest, hsplit⟩ :=
      List.exists_cons_of_ne_nil (List.splitOn_ne_nil '\n' text)
    by_cases hc : c = '\n' <;> simp [hc, hsplit]

/-- Counted together with their line feeds, the segments of a text that a
    line feed follows are all of it. -/
theorem length_flatten_splitOn (text : List Char) :
    (text.splitOn '\n').flatten.length + (text.splitOn '\n').length =
      text.length + 1 := by
  have hlength : text.length =
      text.count '\n' + (text.filter (· ≠ '\n')).length := by
    simpa [List.count, List.countP_eq_length_filter] using
      List.length_eq_countP_add_countP (· == '\n') (l := text)
  rw [flatten_splitOn, length_splitOn, hlength]
  omega

namespace IsSegment

variable {text before segment after : List Char} {line : Nat}

/-- Cutting a text at its line feeds gives its lines, each in its place. -/
theorem exists_splitOn_eq (h : IsSegment text line before segment after) :
    ∃ front rear, text.splitOn '\n' = front ++ segment :: rear ∧
      line = front.length + 1 ∧
      before.length = front.flatten.length + front.length := by
  obtain ⟨rear, hrear⟩ : ∃ rear,
      (segment ++ after).splitOn '\n' = segment :: rear := by
    rcases h.ends with hafter | hafter
    · rw [hafter, List.append_nil, List.splitOn_eq_singleton h.whole]
      exact ⟨[], rfl⟩
    · obtain ⟨rest, rfl⟩ := List.head?_eq_some_iff.mp hafter
      exact ⟨_, List.splitOn_append_cons_self_of_not_mem h.whole rest⟩
  rcases h.starts with hbefore | hbefore
  · refine ⟨[], rear, ?_, ?_, ?_⟩
    · rw [h.text_eq, hbefore, List.nil_append, hrear, List.nil_append]
    · rw [h.line_eq, hbefore]
      rfl
    · rw [hbefore]
      rfl
  · -- the lines before it, without the last line feed
    obtain ⟨init, rfl⟩ := List.getLast?_eq_some_iff.mp hbefore
    refine ⟨init.splitOn '\n', rear, ?_, ?_, ?_⟩
    · rw [h.text_eq, List.append_assoc, List.singleton_append,
        List.splitOn_append_cons_self, hrear]
    · rw [h.line_eq, length_splitOn]
      simp
    · rw [length_flatten_splitOn, List.length_append, List.length_singleton]

theorem length_le (h : IsSegment text line before segment after) :
    before.length + segment.length ≤ text.length := by
  rw [h.text_eq, List.length_append, List.length_append]
  omega

/-- A whole line can be put in front. -/
theorem cons {first : List Char} (hfirst : '\n' ∉ first)
    (h : IsSegment text line before segment after) :
    IsSegment (first ++ '\n' :: text) (line + 1) (first ++ '\n' :: before)
      segment after where
  text_eq := by simp [h.text_eq]
  line_eq := by simp [h.line_eq, List.count_eq_zero.mpr hfirst]
  starts := by
    rcases h.starts with hbefore | hbefore
    · exact .inr (by simp [hbefore])
    · exact .inr (by simp [List.getLast?_append, List.getLast?_cons, hbefore])
  whole := h.whole
  ends := h.ends

end IsSegment

/-- Each segment that the cutting gives is a line in its place. -/
theorem exists_isSegment {text segment : List Char} {n : Nat}
    (h : (text.splitOn '\n')[n]? = some segment) :
    ∃ before after, IsSegment text (n + 1) before segment after := by
  induction n generalizing text with
  | zero =>
    by_cases hmem : '\n' ∈ text
    · obtain ⟨first, rest, rfl, hfirst⟩ := List.eq_append_cons_of_mem hmem
      rw [List.splitOn_append_cons_self_of_not_mem hfirst] at h
      cases h
      exact ⟨[], '\n' :: rest, rfl, rfl, .inl rfl, hfirst, .inr rfl⟩
    · rw [List.splitOn_eq_singleton hmem] at h
      cases h
      exact ⟨[], [], by simp, rfl, .inl rfl, hmem, .inl rfl⟩
  | succ n ih =>
    by_cases hmem : '\n' ∈ text
    · obtain ⟨first, rest, rfl, hfirst⟩ := List.eq_append_cons_of_mem hmem
      rw [List.splitOn_append_cons_self_of_not_mem hfirst] at h
      obtain ⟨before, after, hrest⟩ := ih h
      exact ⟨_, after, hrest.cons hfirst⟩
    · rw [List.splitOn_eq_singleton hmem] at h
      cases h

/-- The lines of a text are what cutting it at its line feeds gives. -/
theorem exists_isSegment_iff {text segment : List Char} {line : Nat} :
    (∃ before after, IsSegment text line before segment after) ↔
      ∃ n, line = n + 1 ∧ (text.splitOn '\n')[n]? = some segment := by
  constructor
  · rintro ⟨before, after, h⟩
    obtain ⟨front, rear, hsplit, hline, -⟩ := h.exists_splitOn_eq
    exact ⟨front.length, hline, by simp [hsplit]⟩
  · rintro ⟨n, rfl, h⟩
    exact exists_isSegment h

end Text

namespace Span

/-- The characters of a text that a span selects. -/
def slice (s : Span) (text : List Char) : List Char :=
  (text.drop s.start).take (s.stop - s.start)

theorem slice_append (before part after : List Char) :
    slice ⟨before.length, before.length + part.length⟩
      (before ++ (part ++ after)) = part := by
  simp [slice]

variable {text before segment after : List Char} {line n : Nat}

/-- The span of a line that is not blank starts after the blanks at the start
    of the line, and is as long as what trimming leaves. -/
theorem ofPlace_of_isSegment
    (h : Text.IsSegment text (n + 1) before segment after)
    (hsolid : Text.trim segment ≠ []) :
    ofPlace text n =
      ⟨before.length + (segment.takeWhile Text.isBlank).length,
        before.length + (segment.takeWhile Text.isBlank).length +
          (Text.trim segment).length⟩ := by
  obtain ⟨front, rear, hsplit, hline, hlength⟩ := h.exists_splitOn_eq
  obtain rfl : n = front.length := Nat.succ.inj hline
  have hsegment : (text.splitOn '\n')[front.length]? = some segment := by
    simp [hsplit]
  have hfront : (text.splitOn '\n').take front.length = front := by
    rw [hsplit, List.take_left]
  simp only [ofPlace, hsegment, if_neg hsolid, hfront, hlength]

/-- The span of a line that is not blank lies in the line, is not empty, and
    selects what trimming leaves. -/
theorem slice_of_isSegment
    (h : Text.IsSegment text (n + 1) before segment after)
    (hsolid : Text.trim segment ≠ []) :
    before.length ≤ (ofPlace text n).start ∧
      (ofPlace text n).start < (ofPlace text n).stop ∧
      (ofPlace text n).stop ≤ before.length + segment.length ∧
      (ofPlace text n).slice text = Text.trim segment := by
  obtain ⟨blanks, hsegment⟩ := Text.exists_eq_trim_append segment
  have hstop : before.length + (segment.takeWhile Text.isBlank).length +
      (Text.trim segment).length ≤ before.length + segment.length := by
    have hlength := congrArg List.length hsegment
    simp only [List.length_append] at hlength
    omega
  have htext : text =
      (before ++ segment.takeWhile Text.isBlank) ++
        (Text.trim segment ++ (blanks ++ after)) := by
    calc text
        = before ++ (segment ++ after) := h.text_eq
      _ = before ++ (segment.takeWhile Text.isBlank ++
            (Text.trim segment ++ blanks) ++ after) := by rw [← hsegment]
      _ = _ := by simp only [List.append_assoc]
  have hslice := slice_append (before ++ segment.takeWhile Text.isBlank)
    (Text.trim segment) (blanks ++ after)
  rw [← htext, List.length_append] at hslice
  rw [ofPlace_of_isSegment h hsolid]
  exact ⟨Nat.le_add_right _ _,
    Nat.lt_add_of_pos_right (List.length_pos_iff.mpr hsolid), hstop, hslice⟩

theorem ofPlace_of_trim_eq_nil (h : (text.splitOn '\n')[n]? = some segment)
    (hblank : Text.trim segment = []) : ofPlace text n = atEnd text := by
  simp only [ofPlace, h, if_pos hblank]

theorem ofPlace_of_length_le (h : (text.splitOn '\n').length ≤ n) :
    ofPlace text n = atEnd text := by
  simp only [ofPlace, List.getElem?_eq_none h]

/-- A line that is blank or not there has the empty span at the end. -/
theorem ofPlace_of_not_exists
    (h : ¬ ∃ before segment after,
      Text.IsSegment text (n + 1) before segment after ∧
        ∃ c ∈ segment, ¬ Text.isBlank c) : ofPlace text n = atEnd text := by
  cases hsegment : (text.splitOn '\n')[n]? with
  | none => exact ofPlace_of_length_le (List.getElem?_eq_none_iff.mp hsegment)
  | some segment =>
    obtain ⟨before, after, hplace⟩ := Text.exists_isSegment hsegment
    apply ofPlace_of_trim_eq_nil hsegment
    by_contra hsolid
    exact h ⟨before, segment, after, hplace, Text.trim_ne_nil_iff.mp hsolid⟩

theorem bounds_ofPlace (text : List Char) (n : Nat) :
    (ofPlace text n).start ≤ (ofPlace text n).stop ∧
      (ofPlace text n).stop ≤ text.length := by
  by_cases h : ∃ before segment after,
      Text.IsSegment text (n + 1) before segment after ∧
        ∃ c ∈ segment, ¬ Text.isBlank c
  · obtain ⟨before, segment, after, hplace, hsolid⟩ := h
    obtain ⟨-, hlt, hstop, -⟩ :=
      slice_of_isSegment hplace (Text.trim_ne_nil_iff.mpr hsolid)
    exact ⟨Nat.le_of_lt hlt, hstop.trans hplace.length_le⟩
  · rw [ofPlace_of_not_exists h]
    exact ⟨Nat.le_refl _, Nat.le_refl _⟩

/-! ## The place of a number -/

/-- A number that no line has gives the empty span at the end. -/
theorem ofLine_of_forall_ne
    (h : ∀ place, 1 ≤ place → place ≤ (text.splitOn '\n').length →
      Text.lineNumber place ≠ line) : ofLine text line = atEnd text := by
  have hnone : (Text.numbered (text.splitOn '\n')).findIdx? (·.2 = line) =
      none := by
    rw [List.findIdx?_eq_none_iff]
    intro l hl
    obtain ⟨l', hl', rfl⟩ := List.mem_map.mp hl
    have hfirst := List.le_snd_of_mem_zipIdx hl'
    have hlast := List.snd_lt_of_mem_zipIdx hl'
    exact decide_eq_false (h l'.2 hfirst (by omega))
  rw [ofLine, hnone]

/-- A number from 1 on below 2^32 is that of its own place first. -/
theorem ofLine_succ (text : List Char) (h : n + 1 < UInt32.size) :
    ofLine text (n + 1) = ofPlace text n := by
  by_cases hlt : n < (text.splitOn '\n').length
  · have hfound : (Text.numbered (text.splitOn '\n')).findIdx?
        (·.2 = n + 1) = some n := by
      rw [List.findIdx?_eq_some_iff_getElem]
      refine ⟨by simpa [Text.numbered] using hlt, ?_, fun j hj => ?_⟩
      · simp [Text.numbered, Nat.add_comm 1 n, Text.lineNumber_of_lt h]
      · have hnumber : Text.lineNumber (1 + j) = 1 + j :=
          Text.lineNumber_of_lt (by omega)
        simp only [Text.numbered, List.getElem_map, List.getElem_zipIdx,
          Prod.map_snd, hnumber, decide_eq_true_iff]
        omega
    rw [ofLine, hfound]
  · rw [ofPlace_of_length_le (by omega)]
    refine ofLine_of_forall_ne fun place _ hplace => ?_
    rw [Text.lineNumber_of_lt (by omega)]
    omega

/-- With fewer than 2^32 - 1 line feeds, numbers are places. -/
theorem ofLine_eq (h : text.count '\n' < UInt32.size - 1) (line : Nat) :
    ofLine text line =
      match line with
      | 0 => atEnd text
      | n + 1 => ofPlace text n := by
  have hlength := Text.length_splitOn text
  cases line with
  | zero =>
    refine ofLine_of_forall_ne fun place hpos hplace => ?_
    rw [Text.lineNumber_of_lt (by omega)]
    omega
  | succ n =>
    by_cases hn : n + 1 < UInt32.size
    · exact ofLine_succ text hn
    · dsimp only
      rw [ofPlace_of_length_le (by omega)]
      refine ofLine_of_forall_ne fun place _ hplace => ?_
      rw [Text.lineNumber_of_lt (by omega)]
      omega

/-- The span of a line as it is scanned selects what trimming leaves of it. -/
theorem slice_ofLine {line : List Char} (hn : n + 1 < UInt32.size)
    (h : (Text.lines text)[n]? = some line) (hsolid : Text.trim line ≠ []) :
    (ofLine text (n + 1)).start < (ofLine text (n + 1)).stop ∧
      (ofLine text (n + 1)).stop ≤ text.length ∧
      (ofLine text (n + 1)).slice text = Text.trim line := by
  obtain ⟨segment, hsegment, htrim⟩ := Text.exists_segment h
  rw [← htrim] at hsolid ⊢
  obtain ⟨before, after, hplace⟩ := Text.exists_isSegment hsegment
  obtain ⟨-, hlt, hstop, hslice⟩ := slice_of_isSegment hplace hsolid
  rw [ofLine_succ text hn]
  exact ⟨hlt, hstop.trans hplace.length_le, hslice⟩

theorem ofLine_of_blank {line : List Char} (hn : n + 1 < UInt32.size)
    (h : (Text.lines text)[n]? = some line) (hblank : Text.trim line = []) :
    ofLine text (n + 1) = atEnd text := by
  obtain ⟨segment, hsegment, htrim⟩ := Text.exists_segment h
  rw [ofLine_succ text hn]
  exact ofPlace_of_trim_eq_nil hsegment (htrim.trans hblank)

/-- **The span of a line is exact.**  The lines of a text are the parts
    between its line feeds, of which there are fewer than 2^32 - 1.  The span
    of any line number runs forwards and ends in the text.  If there is such
    a line and it is not blank, the span lies in that line, and it selects
    the trimmed line, which neither starts nor ends with a blank.  Otherwise
    it is the empty span at the end of the text. -/
theorem ofLine_locates (text : List Char) (line : Nat)
    (hfeeds : text.count '\n' < UInt32.size - 1) :
    (∀ segment,
      (∃ before after, Text.IsSegment text line before segment after) ↔
        ∃ n, line = n + 1 ∧ (text.splitOn '\n')[n]? = some segment) ∧
    (ofLine text line).start ≤ (ofLine text line).stop ∧
    (ofLine text line).stop ≤ text.length ∧
    (∀ before segment after,
      Text.IsSegment text line before segment after →
      (∃ c ∈ segment, ¬ Text.isBlank c) →
        (ofLine text line).slice text = Text.trim segment ∧
        before.length ≤ (ofLine text line).start ∧
        (ofLine text line).stop ≤ before.length + segment.length ∧
        ∃ first last,
          ((ofLine text line).slice text).head? = some first ∧
          ((ofLine text line).slice text).getLast? = some last ∧
          Text.isBlank first = false ∧ Text.isBlank last = false) ∧
    ((¬ ∃ before segment after,
      Text.IsSegment text line before segment after ∧
        ∃ c ∈ segment, ¬ Text.isBlank c) →
      ofLine text line = ⟨text.length, text.length⟩) := by
  rw [ofLine_eq hfeeds]
  refine ⟨fun _ => Text.exists_isSegment_iff, ?_⟩
  cases line with
  | zero =>
    refine ⟨Nat.le_refl _, Nat.le_refl _, ?_, fun _ => rfl⟩
    -- places are counted from 1
    intro before segment after hplace
    obtain ⟨n, hn, -⟩ := Text.exists_isSegment_iff.mp ⟨before, after, hplace⟩
    cases hn
  | succ n =>
    obtain ⟨hle, hstop⟩ := bounds_ofPlace text n
    refine ⟨hle, hstop, ?_, ofPlace_of_not_exists⟩
    intro before segment after hplace hsolid
    have htrim := Text.trim_ne_nil_iff.mpr hsolid
    obtain ⟨hstart, -, hinside, hslice⟩ := slice_of_isSegment hplace htrim
    dsimp only
    rw [hslice]
    exact ⟨rfl, hstart, hinside, Text.exists_ends_trim htrim⟩

/-- A line with blanks of several kinds around it, after a line that is one
    character and two bytes long, and the blank line after it. -/
theorem ofLine_locates_indented :
    let text := "é\n \tbé c \r\n\n".toList
    Text.IsSegment text 2 "é\n".toList " \tbé c \r".toList "\n\n".toList ∧
      (ofLine text 2).slice text = "bé c".toList ∧
      2 ≤ (ofLine text 2).start ∧ (ofLine text 2).stop ≤ 10 ∧
      (text.splitOn '\n')[2]? = some [] ∧ ofLine text 3 = ⟨12, 12⟩ := by
  intro text
  have hplace : Text.IsSegment text 2 "é\n".toList " \tbé c \r".toList
      "\n\n".toList :=
    ⟨by decide, by decide, .inr (by decide), by decide, .inr (by decide)⟩
  have hempty : (text.splitOn '\n')[2]? = some [] := by decide
  have hfeeds : text.count '\n' < UInt32.size - 1 := by decide
  obtain ⟨-, -, -, hsolid, -⟩ := ofLine_locates text 2 hfeeds
  obtain ⟨hslice, hstart, hstop, -⟩ :=
    hsolid _ _ _ hplace ⟨'b', by decide, by decide⟩
  obtain ⟨hlines, -, -, -, hend⟩ := ofLine_locates text 3 hfeeds
  refine ⟨hplace, hslice, hstart, hstop, hempty, hend ?_⟩
  rintro ⟨before, segment, after, hplace, c, hc, -⟩
  obtain ⟨n, hn, hsegment⟩ := (hlines segment).mp ⟨before, after, hplace⟩
  cases hn
  cases hempty.symm.trans hsegment
  cases hc

end Span

end SayScript
