import SayScript.Proofs.Concatenation
import SayScript.Proofs.Spans
import SayScript.Report.Basic

/-! # Reports point at the line of the fault

    A report on a rejected script has one label, with the message of the
    fault and the span of its line.  Two things make the span right.

    The line is one of the script.  The lines of all faults are lines of
    tokens, and each token but the last stands on a line that says something.
    The last one, the end of the input, stands on the last line.

    A fault about a quote or a token is never about the end of the input: the
    last token of each line ends that line and leaves no statement open.  So
    its line says something, and its span is not empty. -/

namespace SayScript

/-! ## The line of a rejection -/

theorem Text.trim_ne_nil_of_content? {line : List Char}
    (h : (content? line).isSome) : trim line ≠ [] := by
  intro htrim
  rw [content?, htrim] at h
  cases h

/-- Some line is in the last place, unless there is none. -/
theorem Text.exists_mem_placedLines_length {text : List Char}
    (h : lines text ≠ []) :
    ∃ line, (line, (lines text).length) ∈ placedLines text := by
  have hpos : 0 < (lines text).length := List.length_pos_iff.mpr h
  refine ⟨(lines text).getLast h, ?_⟩
  rw [placedLines, List.mk_mem_zipIdx_iff_le_and_getElem?_sub]
  exact ⟨hpos, by rw [← List.getLast?_eq_getElem?, List.getLast?_eq_some_getLast h]⟩

/-- A fault about a token of whole lines is on the line of one of them.  It
    is found whatever follows them, also if the input ends on another line. -/
theorem Program.exists_token_of_namesToken {limit n : Nat}
    {body : List Token} {e : ReadFault} (hbody : Token.WholeLines body)
    (h : ofTokens limit (body ++ [.endOfInput n]) = .error e)
    (he : e.namesToken) : ∃ t ∈ body, t.line = e.line := by
  have hother : ofTokens limit (body ++ [.endOfInput (e.line + 1)]) =
      .error e :=
    Reader.result_append_of_namesToken hbody rfl h he _ _
  have hmem : e.line ∈ e.lines := by
    cases e <;> simp [ReadFault.lines, ReadFault.line]
  obtain ⟨t, ht, hline⟩ := exists_token_of_mem_lines hother e.line hmem
  rcases List.mem_append.mp ht with ht | ht
  · exact ⟨t, ht, hline⟩
  · rw [List.mem_singleton.mp ht] at hline
    exact absurd hline (Nat.succ_ne_self e.line)

namespace Rejection

variable {limit : Nat} {script : String} {e : Rejection}

/-- Is the rejection about a piece of the script, a quote or a token, rather
    than about where a block ends? -/
def namesText : Rejection → Bool
  | scan _ => true
  | read fault => fault.namesToken

/-- With fewer than 2^32 lines, the line of a rejection says something, unless
    it is the last line and the rejection is about where a block ends. -/
theorem exists_line_or_last
    (hlines : (Text.lines script.toList).length < UInt32.size)
    (h : Program.ofScript limit script = .error e) :
    (∃ line, (line, e.line) ∈ Text.placedLines script.toList ∧
      Text.trim line ≠ []) ∨
    (e.namesText = false ∧ Text.lines script.toList ≠ [] ∧
      e.line = (Text.lines script.toList).length) := by
  cases e with
  | scan f =>
    have hscan := Token.ofScript_eq_error_iff.mp (Program.ofScript_eq_scan h)
    rw [Text.numberedLines_of_lt hlines] at hscan
    obtain ⟨line, hmem, hcontent⟩ :=
      Token.exists_mem_of_ofNumbered_error hscan
    exact .inl ⟨line, hmem, Text.trim_ne_nil_of_content? hcontent⟩
  | read fault =>
    obtain ⟨ts, hts, hread⟩ := Program.ofScript_eq_read h
    obtain ⟨body, hscan, hbody, rfl⟩ :=
      Token.exists_wholeLines_of_ofScript hts
    rw [Text.numberedLines_of_lt hlines] at hscan
    rw [Text.lineNumber_of_lt hlines] at hread
    -- the line of any token but the last says something
    have hline : ∀ t ∈ body, t.line = fault.line →
        ∃ line, (line, fault.line) ∈ Text.placedLines script.toList ∧
          Text.trim line ≠ [] := by
      intro t ht heq
      obtain ⟨line, hmem, hcontent⟩ :=
        Token.exists_mem_of_mem_ofNumbered hscan ht
      rw [heq] at hmem
      exact ⟨line, hmem, Text.trim_ne_nil_of_content? hcontent⟩
    have hmem : fault.line ∈ fault.lines := by
      cases fault <;> simp [ReadFault.lines, ReadFault.line]
    cases hnames : fault.namesToken with
    | true =>
      obtain ⟨t, ht, heq⟩ :=
        Program.exists_token_of_namesToken hbody hread hnames
      exact .inl (hline t ht heq)
    | false =>
      obtain ⟨t, ht, heq⟩ :=
        Program.exists_token_of_mem_lines hread fault.line hmem
      rcases List.mem_append.mp ht with ht | ht
      · exact .inl (hline t ht heq)
      · -- a script without lines is a program, so there is a last line
        refine .inr ⟨hnames, ?_, ?_⟩
        · intro hnil
          rw [Text.placedLines, hnil] at hscan
          cases hscan
          cases hread
        · rw [List.mem_singleton.mp ht] at heq
          exact heq.symm

/-- With fewer than 2^32 lines, the line of a rejection is one of the script,
    and says something if the rejection is about a piece of it. -/
theorem exists_line
    (hlines : (Text.lines script.toList).length < UInt32.size)
    (h : Program.ofScript limit script = .error e) :
    ∃ line, (line, e.line) ∈ Text.placedLines script.toList ∧
      (e.namesText → Text.trim line ≠ []) := by
  rcases exists_line_or_last hlines h with
    ⟨line, hmem, hsolid⟩ | ⟨hnames, hsome, heq⟩
  · exact ⟨line, hmem, fun _ => hsolid⟩
  · obtain ⟨line, hlast⟩ := Text.exists_mem_placedLines_length hsome
    rw [← heq] at hlast
    exact ⟨line, hlast, by simp [hnames]⟩

/-! ## The label -/

/-- The message of a fault starts with its line. -/
theorem lineTag_prefix (e : Rejection) :
    (Report.lineTag e.line).toList <+: e.faultMessage.toList := by
  cases e with
  | scan f =>
    refine ⟨' ' :: ScanFault.problem.toList, ?_⟩
    simp [Report.lineTag, faultMessage, line, ScanFault.message]
    rfl
  | read fault =>
    refine ⟨' ' :: fault.problem.toList, ?_⟩
    simp [Report.lineTag, faultMessage, line, ReadFault.message]
    rfl

/-- The report has one label, with the message of the fault as it is: the line
    is named in it already. -/
theorem labels_report (e : Rejection) (source : String)
    (path : Option String) :
    (e.report source path).labels =
      [⟨.ofLine source.toList e.line, e.faultMessage⟩] := by
  have htag : (Report.lineTag e.line).toList.isPrefixOf
      e.faultMessage.toList := List.isPrefixOf_iff_prefix.mpr e.lineTag_prefix
  unfold report
  cases e.stage <;> cases e.help? <;>
    simp [Report.withHelp, Report.withLineLabel, Report.withSource,
      Report.new, htag]

/-- The message of a rejection is that of the fault after the name of the
    step that failed. -/
theorem message_eq (e : Rejection) :
    e.message = "lex error: " ++ e.faultMessage ∨
      e.message = "parse error: " ++ e.faultMessage := by
  cases e with
  | scan _ => exact .inl rfl
  | read _ => exact .inr rfl

/-- **A report points at the line of the fault.**  Let a script of fewer than
    2^32 lines be rejected.  The line is one of them.  The report has one
    label.  Its message is that of the fault, to
    which nothing is added and which starts with the line.  Its span selects
    the trimmed line, and is not empty, if the rejection is about a piece of
    the script or the line is not blank.  Otherwise it is the empty span at
    the end. -/
theorem report_of_compile (path : Option String)
    (hlines : (Text.lines script.toList).length < UInt32.size)
    (h : compile limit script = .error e) :
    1 ≤ e.line ∧ e.line ≤ (Text.lines script.toList).length ∧
    ∃ line label, (Text.lines script.toList)[e.line - 1]? = some line ∧
      (e.report script path).labels = [label] ∧
      label.message = e.faultMessage ∧
      (e.message = "lex error: " ++ label.message ∨
        e.message = "parse error: " ++ label.message) ∧
      (Report.lineTag e.line).toList <+: label.message.toList ∧
      label.span.stop ≤ script.toList.length ∧
      (e.namesText → label.span.start < label.span.stop ∧
        label.span.slice script.toList = Text.trim line) ∧
      (Text.trim line ≠ [] → label.span.start < label.span.stop ∧
        label.span.slice script.toList = Text.trim line) ∧
      (Text.trim line = [] → label.span = .atEnd script.toList) := by
  obtain ⟨line, hmem, hnames⟩ :=
    exists_line hlines (ofScript_of_compile_error h)
  rw [Text.placedLines, List.mk_mem_zipIdx_iff_le_and_getElem?_sub] at hmem
  obtain ⟨hpos, hline⟩ := hmem
  have hlt := (List.getElem?_eq_some_iff.mp hline).1
  obtain ⟨n, hn⟩ : ∃ n, e.line = n + 1 := Nat.exists_eq_add_one.mpr hpos
  have hlabels := e.labels_report script path
  rw [hn, Nat.add_sub_cancel] at hline
  rw [hn] at hlabels
  have hplace : n + 1 < UInt32.size := by omega
  have hselects := Span.slice_ofLine hplace hline
  have hblank := Span.ofLine_of_blank hplace hline
  refine ⟨hpos, by omega, line, _, by rwa [hn], hlabels, rfl, e.message_eq,
    e.lineTag_prefix, ?_, ?_, ?_, hblank⟩
  · by_cases hsolid : Text.trim line = []
    · rw [hblank hsolid]
      exact Nat.le_refl _
    · exact (hselects hsolid).2.1
  · intro he
    obtain ⟨hlt, -, hslice⟩ := hselects (hnames he)
    exact ⟨hlt, hslice⟩
  · intro hsolid
    obtain ⟨hlt, -, hslice⟩ := hselects hsolid
    exact ⟨hlt, hslice⟩

/-- A quote left open on a line with a carriage return, a token that does not
    fit its place on an indented line, and a block left open before a blank
    line. -/
theorem report_of_compile_lines :
    let quote := "set a\r\n  say \"é\" \"oops \r\n"
    let misfit := "start:\n\t set \"x\"  \nend"
    let unclosed := "start:\n \t\n"
    (∃ label, ((scan ⟨2⟩).report quote none).labels = [label] ∧
      label.message = "line 2: unterminated string literal" ∧
      label.span.slice quote.toList = "say \"é\" \"oops".toList) ∧
    (∃ label, ((read (.expected .variableName "\"x\"" 2)).report misfit
        none).labels = [label] ∧
      label.span.slice misfit.toList = "set \"x\"".toList) ∧
    (∃ label, ((read (.unclosedBlock 1 2)).report unclosed
        (some "a")).labels = [label] ∧
      label.span = ⟨10, 10⟩) := by
  intro quote misfit unclosed
  have hquote : compile 5 quote = .error (.scan ⟨2⟩) := by decide +kernel
  have hmisfit : compile 5 misfit =
      .error (.read (.expected .variableName "\"x\"" 2)) := by decide +kernel
  have hunclosed : compile 5 unclosed =
      .error (.read (.unclosedBlock 1 2)) := by decide +kernel
  have hquoteLine : (Text.lines quote.toList)[1]? =
      some "  say \"é\" \"oops ".toList := by decide +kernel
  have hmisfitLine : (Text.lines misfit.toList)[1]? =
      some "\t set \"x\"  ".toList := by decide +kernel
  have hunclosedLine : (Text.lines unclosed.toList)[1]? =
      some " \t".toList := by decide +kernel
  refine ⟨?_, ?_, ?_⟩
  · obtain ⟨-, -, line, label, hline, hlabel, hmessage, -, -, -, hnames, -⟩ :=
      report_of_compile none (by decide +kernel) hquote
    cases hquoteLine.symm.trans hline
    refine ⟨label, hlabel, hmessage.trans (by decide +kernel), ?_⟩
    exact (hnames rfl).2.trans (by decide +kernel)
  · obtain ⟨-, -, line, label, hline, hlabel, -, -, -, -, hnames, -⟩ :=
      report_of_compile none (by decide +kernel) hmisfit
    cases hmisfitLine.symm.trans hline
    exact ⟨label, hlabel, (hnames rfl).2.trans (by decide +kernel)⟩
  · obtain ⟨-, -, line, label, hline, hlabel, -, -, -, -, -, -, hblank⟩ :=
      report_of_compile (some "a") (by decide +kernel) hunclosed
    cases hunclosedLine.symm.trans hline
    exact ⟨label, hlabel, (hblank (by decide +kernel)).trans (by decide +kernel)⟩

end Rejection

end SayScript
