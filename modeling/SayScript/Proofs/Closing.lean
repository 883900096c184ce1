import Mathlib.Data.List.GetD
import SayScript.Proofs.Concatenation
import SayScript.Proofs.Faults
import SayScript.Proofs.Limits
import SayScript.Proofs.LongScripts
import SayScript.Proofs.Spans

/-! # Closing what is open

    When the input ends inside a block, the fault asks for an `end`.  This
    module shows that the advice is good.  Every `end` on a line of its own
    behind the script closes one open block, the innermost one first, and
    once all are closed the script is a program, which further ones do not
    change.

    A reader that stands between two lines is suspended in all its open
    blocks at once.  `Closable` says that each of them can be closed under
    the limit; it holds if the limit is at least the number of tokens, and
    every `end` keeps it.  So the whole family of scripts is read by one
    reader that leaves its blocks one after the other. -/

namespace SayScript

/-! ## A script with lines that say `end` behind it -/

namespace Text

/-- As many times a line feed and the word `end`. -/
def ends (j : Nat) : String :=
  String.join (List.replicate j "\nend")

theorem append_ends_succ (script : String) (j : Nat) :
    script ++ ends (j + 1) = script ++ ends j ++ "\nend" := by
  have hends : ends (j + 1) = ends j ++ "\nend" := by
    unfold ends String.join
    rw [List.replicate_succ', List.foldl_append]
    rfl
  rw [hends, String.append_assoc]

theorem append_ends_zero (script : String) : script ++ ends 0 = script :=
  String.append_empty

/-- A text is made of whole lines and a last one that does not end. -/
theorem exists_whole_append_last (text : List Char) :
    ∃ whole last, text = whole ++ last ∧
      (whole = [] ∨ whole.getLast? = some '\n') ∧ '\n' ∉ last := by
  induction text using List.reverseRecOn with
  | nil => exact ⟨[], [], rfl, .inl rfl, List.not_mem_nil⟩
  | append_singleton text c ih =>
    by_cases hc : c = '\n'
    · refine ⟨text ++ [c], [], by simp, .inr ?_, List.not_mem_nil⟩
      rw [List.getLast?_concat, hc]
    · obtain ⟨whole, last, rfl, hwhole, hlast⟩ := ih
      refine ⟨whole, last ++ [c], by simp, hwhole, ?_⟩
      simp [hlast, Ne.symm hc]

end Text

namespace Token

theorem ofLine_dropReturn (line : List Char) (number : Nat) :
    ofLine (Text.dropReturn line) number = ofLine line number := by
  simp only [ofLine, Text.content?, Text.trim_dropReturn]

/-- A line feed at the end of a text ends its last line, if that is still
    open, and adds an empty line otherwise.  Nothing of it is scanned. -/
theorem ofNumbered_concat_newline (text : List Char) :
    ofNumbered (Text.numberedLines (text ++ ['\n'])) =
      ofNumbered (Text.numberedLines text) := by
  obtain ⟨whole, last, rfl, hwhole, hlast⟩ :=
    Text.exists_whole_append_last text
  have hended : Text.lines (whole ++ last ++ ['\n']) =
      Text.lines whole ++ [Text.dropReturn last] := by
    rw [List.append_assoc, Text.lines_append_lines _ hwhole,
      Text.lines_append [] hlast]
    rfl
  have hopen : Text.lines (whole ++ last) =
      Text.lines whole ++ [last].filter (!·.isEmpty) := by
    rw [Text.lines_append_lines _ hwhole, Text.lines_of_newline_not_mem hlast]
  have hlines : ∀ number, ofNumbered [(Text.dropReturn last, number)] =
      ofNumbered (([last].filter (!·.isEmpty)).zipIdx number) := by
    intro number
    by_cases hempty : last = []
    · subst hempty
      rfl
    · have hkeep : [last].filter (!·.isEmpty) = [last] := by simp [hempty]
      rw [hkeep, List.zipIdx_singleton, ofNumbered, ofLine_dropReturn]
      rfl
  have hplaced : ofNumbered (Text.placedLines (whole ++ last ++ ['\n'])) =
      ofNumbered (Text.placedLines (whole ++ last)) := by
    rw [Text.placedLines, Text.placedLines, hended, hopen, List.zipIdx_append,
      List.zipIdx_append, ofNumbered_append, ofNumbered_append, ← hlines]
    rfl
  rw [Text.numberedLines_eq, Text.numberedLines_eq, ofNumbered_renumber,
    ofNumbered_renumber, hplaced]

theorem ofLine_end (number : Nat) :
    ofLine "end".toList number =
      .ok [ofKeyword number .close, newline number] := by
  have hspells := (Spells.nil number).keyword .close Lexeme.endsWord_nil
  rw [List.append_nil] at hspells
  exact ofLine_of_spells hspells ⟨'e', rfl, by decide⟩ 0

/-- A line that says `end` adds two tokens, whatever the script ends with. -/
theorem ofNumbered_append_end {script : String} {body : List Token}
    (h : ofNumbered (Text.numberedLines script.toList) = .ok body) :
    ∃ number, ofNumbered (Text.numberedLines (script ++ "\nend").toList) =
      .ok (body ++ [ofKeyword number .close, newline number]) := by
  have hsplit : script ++ "\nend" = script ++ "\n" ++ "end" := by
    rw [String.append_assoc]
    rfl
  have hwhole : script ++ "\n" = "" ∨
      (script ++ "\n").toList.getLast? = some '\n' := by
    right
    simp
  have hbefore : ofNumbered (Text.numberedLines (script ++ "\n").toList) =
      .ok body := by
    rw [← h, ← ofNumbered_concat_newline script.toList, String.toList_append]
    rfl
  have hend : Text.numberedLines "end".toList = [("end".toList, 1)] := rfl
  refine ⟨Text.lineNumber (1 + (Text.lines (script ++ "\n").toList).length), ?_⟩
  rw [hsplit, Text.numberedLines_toList_append hwhole
    (Text.shifts_lineNumber _ _), hend, List.map_singleton, Prod.map_apply, id]
  exact ofNumbered_concat hbefore (ofLine_end _)

end Token

/-! ## Leaving the open blocks -/

namespace Reader

variable {limit n line : Nat} {r q : Reader}

/-- Between two lines, all open blocks can be closed under the limit. -/
structure Closable (limit : Nat) (r : Reader) : Prop where
  idle : r.pending = .idle
  room : r.isOverfull limit = false
  /-- A block is an item of the level around it when it is closed. -/
  outer : ∀ b ∈ r.blocks, b.outer.items < limit

/-- A reader that took no more tokens than the limit has room in all open
    blocks. -/
theorem Counted.closable (h : r.Counted n) (hn : n ≤ limit)
    (hp : r.pending = .idle) : r.Closable limit where
  idle := hp
  room := h.isOverfull hn
  outer := by
    intro b hb
    have := h.outer b hb
    omega

theorem Closable.leave (h : r.Closable limit) : r.leave.Closable limit := by
  have hidle := leave_pending h.idle
  unfold Reader.leave at hidle ⊢
  cases hblocks : r.blocks with
  | nil =>
    simp only [hblocks] at hidle ⊢
    refine ⟨hidle, ?_, ?_⟩
    · simp [isOverfull, hblocks]
    · intro b hb
      rw [skip_blocks, hblocks] at hb
      cases hb
  | cons b outer =>
    simp only [hblocks] at hidle ⊢
    have houter : ∀ b' ∈ b :: outer, b'.outer.items < limit :=
      hblocks ▸ h.outer
    refine ⟨rfl, ?_, fun b' hb' => houter b' (List.mem_cons_of_mem b hb')⟩
    -- the block that was closed is one more item of the level around it
    have hb := houter b List.mem_cons_self
    have hitems : ¬ limit < b.outer.items + 1 := by omega
    simp [isOverfull, hitems]

theorem Closable.reads_end (h : r.Closable limit) (number : Nat) :
    Reads limit r [.ofKeyword number .close, .newline number] r.leave := by
  refine .cons (.begins (.idle h.idle) h.room (.close rfl)) ?_
  exact .single (.begins (.idle h.leave.idle) h.leave.room (.newline rfl))

theorem Closable.conclude_of_openLines_eq_nil (h : r.Closable limit)
    (hopen : r.openLines = []) (line : Nat) :
    r.conclude limit line = .ok ⟨r.level.body⟩ := by
  have hblocks : r.blocks = [] := List.map_eq_nil_iff.mp hopen
  simp [conclude, h.room, hblocks]

theorem Closable.conclude_of_openLines_eq_cons (h : r.Closable limit)
    {openedAt : Nat} {outer : List Nat} (hopen : r.openLines = openedAt :: outer)
    (line : Nat) :
    r.conclude limit line = .error (.unclosedBlock openedAt line) := by
  obtain ⟨b, blocks, hblocks, rfl, -⟩ := List.map_eq_cons_iff.mp hopen
  simp [conclude, h.room, hblocks]

/-- Outside all blocks there is nothing to leave. -/
theorem body_leave (h : r.openLines = []) :
    r.leave.level.body = r.level.body := by
  have hblocks : r.blocks = [] := List.map_eq_nil_iff.mp h
  simp [leave, hblocks]

/-! ### One `end` after the other -/

theorem Closable.iterate_leave (h : r.Closable limit) (j : Nat) :
    (Reader.leave^[j] r).Closable limit := by
  induction j with
  | zero => exact h
  | succ j ih =>
    rw [Function.iterate_succ_apply']
    exact ih.leave

theorem openLines_iterate_leave (r : Reader) (j : Nat) :
    (leave^[j] r).openLines = r.openLines.drop j := by
  induction j with
  | zero => rfl
  | succ j ih =>
    rw [Function.iterate_succ_apply', openLines_leave, ih, List.tail_drop]

/-- Once all blocks are closed, what was read stays what it is. -/
theorem body_iterate_leave {j : Nat} (hj : r.openLines.length ≤ j) :
    (leave^[j] r).level.body =
      (leave^[r.openLines.length] r).level.body := by
  induction j, hj using Nat.le_induction with
  | base => rfl
  | succ j hj ih =>
    have hopen : (leave^[j] r).openLines = [] := by
      rw [openLines_iterate_leave, List.drop_of_length_le hj]
    rw [Function.iterate_succ_apply', body_leave hopen, ih]

/-! ## Reading the lines of a script -/

/-- The lines of the script take a reader from the start to `q`. -/
def ReadsScript (limit : Nat) (script : String) (q : Reader) : Prop :=
  ∃ body, Token.ofNumbered (Text.numberedLines script.toList) = .ok body ∧
    Reads limit initial body q

variable {script : String}

/-- Behind whole lines no statement is begun. -/
theorem pending_of_ofNumbered {ls : List (List Char × Nat)} {body : List Token}
    (hscan : Token.ofNumbered ls = .ok body) (h : Reads limit initial body q) :
    q.pending = .idle := by
  have hbody := Token.wholeLines_of_ofNumbered hscan
  exact h.pending_of_lineEnd (fun _ => rfl)
    (fun t ht => .inl (hbody.newline t ht))

theorem ReadsScript.pending (h : ReadsScript limit script q) :
    q.pending = .idle := by
  obtain ⟨body, hscan, hreads⟩ := h
  exact pending_of_ofNumbered hscan hreads

theorem ReadsScript.ofScript (h : ReadsScript limit script q) :
    Program.ofScript limit script = (q.conclude limit
      (Text.lineNumber (Text.lines script.toList).length)).mapError .read := by
  have hidle := h.pending
  obtain ⟨body, hscan, hreads⟩ := h
  rw [Program.ofScript_of_tokens (Token.ofScript_of_ofNumbered hscan),
    ofTokens_eq_result, result_append hreads, result_endOfInput hidle rfl]
  rfl

theorem ReadsScript.append_end (h : ReadsScript limit script q)
    (hq : q.Closable limit) :
    ReadsScript limit (script ++ "\nend") q.leave := by
  obtain ⟨body, hscan, hreads⟩ := h
  obtain ⟨number, hscan'⟩ := Token.ofNumbered_append_end hscan
  exact ⟨_, hscan', hreads.append (hq.reads_end number)⟩

theorem ReadsScript.append_ends (h : ReadsScript limit script q)
    (hq : q.Closable limit) (j : Nat) :
    ReadsScript limit (script ++ Text.ends j) (leave^[j] q) := by
  induction j with
  | zero =>
    rw [Text.append_ends_zero]
    exact h
  | succ j ih =>
    rw [Text.append_ends_succ, Function.iterate_succ_apply']
    exact ih.append_end (hq.iterate_leave j)

/-- With too few lines that say `end`, the innermost block that is left open
    is reported. -/
theorem ReadsScript.ofScript_append_ends_of_lt (h : ReadsScript limit script q)
    (hq : q.Closable limit) {j : Nat} (hj : j < q.openLines.length) :
    ∃ line, Program.ofScript limit (script ++ Text.ends j) =
      .error (.read (.unclosedBlock q.openLines[j] line)) := by
  have hopen : (leave^[j] q).openLines =
      q.openLines[j] :: q.openLines.drop (j + 1) := by
    rw [openLines_iterate_leave, List.drop_eq_getElem_cons hj]
  refine ⟨Text.lineNumber
    (Text.lines (script ++ Text.ends j).toList).length, ?_⟩
  rw [(h.append_ends hq j).ofScript,
    (hq.iterate_leave j).conclude_of_openLines_eq_cons hopen]
  rfl

/-- With enough lines that say `end` there is one program, however many more
    follow. -/
theorem ReadsScript.ofScript_append_ends_of_le (h : ReadsScript limit script q)
    (hq : q.Closable limit) {j : Nat} (hj : q.openLines.length ≤ j) :
    Program.ofScript limit (script ++ Text.ends j) =
      .ok ⟨(leave^[q.openLines.length] q).level.body⟩ := by
  have hopen : (leave^[j] q).openLines = [] := by
    rw [openLines_iterate_leave, List.drop_of_length_le hj]
  rw [(h.append_ends hq j).ofScript,
    (hq.iterate_leave j).conclude_of_openLines_eq_nil hopen,
    body_iterate_leave hj]
  rfl

/-- Under a limit of at least the number of tokens there is room in all open
    blocks. -/
theorem ReadsScript.closable {ts : List Token} (h : ReadsScript limit script q)
    (hts : Token.ofScript script = .ok ts) (hlimit : ts.length ≤ limit) :
    q.Closable limit := by
  have hidle := h.pending
  obtain ⟨body, hscan, hreads⟩ := h
  obtain ⟨body', hscan', -, rfl⟩ := Token.exists_wholeLines_of_ofScript hts
  rw [hscan] at hscan'
  cases hscan'
  rw [List.length_append] at hlimit
  exact (Counted.initial.reads hreads).closable (by omega) hidle

/-- If only the end of the input shows a block that is open, the reader gets
    there. -/
theorem exists_readsScript {openedAt : Nat}
    (h : Program.ofScript limit script =
      .error (.read (.unclosedBlock openedAt line))) :
    ∃ q, ReadsScript limit script q := by
  obtain ⟨ts, hts, hread⟩ := Program.ofScript_eq_read h
  obtain ⟨body, hscan, hbody, rfl⟩ := Token.exists_wholeLines_of_ofScript hts
  rcases reads_or_stops limit initial body with ⟨q, hreads⟩ |
    ⟨used, q, t, left, result, uses, rfl, hreads, hstops⟩
  · exact ⟨q, body, hscan, hreads⟩
  · have hresult : result = .error (.unclosedBlock openedAt line) := by
      rw [ofTokens_eq_result, List.append_assoc, result_append hreads,
        List.cons_append, result_of_stop (feed_of_stops hstops)] at hread
      exact hread
    cases hstops with
    | inputEnd _ hkind => exact absurd hkind (hbody.noEnd t (by simp))
    | full _ _ => cases hresult
    | misfit _ _ => cases hresult
    | unexpected _ _ _ => cases hresult

end Reader

/-! ## The lines of open blocks -/

namespace Token

variable {ls : List (List Char × Nat)} {ts : List Token}

/-- Where the numbers of lines increase, those of tokens do not decrease. -/
theorem pairwise_line_of_ofNumbered
    (hls : ls.Pairwise fun l l' => l.2 < l'.2) (h : ofNumbered ls = .ok ts) :
    ts.Pairwise fun t t' => t.line ≤ t'.line := by
  obtain ⟨-, rfl⟩ := ofNumbered_eq_ok_iff.mp h
  rw [List.pairwise_flatMap]
  constructor
  · intro l _
    refine List.pairwise_of_forall_mem_list fun t ht t' ht' => ?_
    rw [line_of_mem_lineTokens ht, line_of_mem_lineTokens ht']
  · refine hls.imp fun hlt t ht t' ht' => ?_
    rw [line_of_mem_lineTokens ht, line_of_mem_lineTokens ht']
    exact Nat.le_of_lt hlt

end Token

namespace Grammar

variable {ts header inside rest : List Token} {opened : List Nat} {line : Nat}

/-- A header starts with its keyword, and what is inside comes later. -/
theorem IsHeader.exists_cons (h : IsHeader header line inside) :
    ∃ keyword later, header = keyword :: later ∧ keyword.line = line ∧
      inside <:+ later := by
  cases h with
  | @function keyword name colon => exact ⟨_, _, rfl, rfl, [name, colon], rfl⟩
  | @functionWith keyword name parameter colon =>
    exact ⟨_, _, rfl, rfl, [name, parameter, colon], rfl⟩
  | @start keyword colon => exact ⟨_, _, rfl, rfl, [colon], rfl⟩

/-- In tokens whose lines do not decrease, an inner block is not opened
    before an outer one. -/
theorem Reaches.pairwise_opened
    (hts : ts.Pairwise fun t t' => t.line ≤ t'.line)
    (h : Reaches ts opened rest) :
    opened.Pairwise (fun inner outer => outer ≤ inner) ∧
      ∀ line ∈ opened, ∀ t ∈ rest, line ≤ t.line := by
  induction h with
  | outside _ => simp
  | @inside opened header line inside rest houter hheader hinside ih =>
    obtain ⟨hpairwise, hle⟩ := ih
    obtain ⟨keyword, later, rfl, rfl, hlater⟩ := hheader.exists_cons
    have hheaderPairwise := hts.sublist houter.suffix.sublist
    rw [List.pairwise_cons] at hheaderPairwise
    have hrest : ∀ t ∈ rest, t ∈ later := fun t ht =>
      hlater.subset (hinside.suffix.subset ht)
    constructor
    · rw [List.pairwise_cons]
      exact ⟨fun line hline => hle line hline keyword List.mem_cons_self,
        hpairwise⟩
    · intro line hline t ht
      rcases List.mem_cons.mp hline with rfl | hline
      · exact hheaderPairwise.1 t (hrest t ht)
      · exact hle line hline t (List.mem_cons_of_mem _ (hrest t ht))

end Grammar

namespace Program

open Reader

/-- Lines of a script are read in order, so that inner blocks are opened
    later, and on lines with higher numbers if there are fewer than 2^32. -/
theorem pairwise_openLines {limit : Nat} {script : String} {q : Reader}
    (hlines : (Text.lines script.toList).length < UInt32.size)
    (h : ReadsScript limit script q) :
    q.openLines.Pairwise fun inner outer => outer ≤ inner := by
  have hidle := h.pending
  obtain ⟨body, hscan, hreads⟩ := h
  rw [Text.numberedLines_of_lt hlines] at hscan
  have hsorted := Token.pairwise_line_of_ofNumbered
    (Text.pairwise_placedLines script.toList) hscan
  have hinitial : Stands body initial (body ++ []) := by
    rw [List.append_nil]
    exact stands_initial body
  have hreaches := (hinitial.reads hreads).reaches hidle
  exact (hreaches.pairwise_opened hsorted).1

/-- **Following the advice closes the program.**  Let a script be rejected
    because a block is not closed, under a limit of at least the number of
    its tokens.  Then some number of lines that say `end`, put behind the
    script, is needed and enough.  With fewer of them a block is reported as
    not closed, and the more there are, the earlier it was opened, by the
    numbers of the lines if the script has fewer than 2^32.  With that many
    or more the script is a program, always the same one. -/
theorem ofScript_append_ends {limit : Nat} {script : String}
    {ts : List Token} {openedAt line : Nat}
    (hts : Token.ofScript script = .ok ts) (hlimit : ts.length ≤ limit)
    (h : ofScript limit script =
      .error (.read (.unclosedBlock openedAt line))) :
    ∃ k, 1 ≤ k ∧
      (∃ opened : Nat → Nat,
        (∀ j < k, ∃ line, ofScript limit (script ++ Text.ends j) =
          .error (.read (.unclosedBlock (opened j) line))) ∧
        ((Text.lines script.toList).length < UInt32.size →
          ∀ i j, i ≤ j → j < k → opened j ≤ opened i)) ∧
      ∃ p, ∀ j, k ≤ j → ofScript limit (script ++ Text.ends j) = .ok p := by
  obtain ⟨q, hq⟩ := exists_readsScript h
  have hclosable := hq.closable hts hlimit
  refine ⟨q.openLines.length, ?_, ⟨fun j => q.openLines.getD j 0, ?_, ?_⟩,
    _, fun j hj => hq.ofScript_append_ends_of_le hclosable hj⟩
  · -- the script itself is no program, so a block is open
    by_contra hnone
    have hok := hq.ofScript_append_ends_of_le hclosable (j := 0) (by omega)
    rw [Text.append_ends_zero, h] at hok
    cases hok
  · intro j hj
    beta_reduce
    rw [List.getD_eq_getElem _ _ hj]
    exact hq.ofScript_append_ends_of_lt hclosable hj
  · intro hlines i j hij hj
    have hsorted := pairwise_openLines hlines hq
    show q.openLines.getD j 0 ≤ q.openLines.getD i 0
    rw [List.getD_eq_getElem _ _ hj, List.getD_eq_getElem _ _ (by omega)]
    rcases Nat.eq_or_lt_of_le hij with rfl | hlt
    · exact Nat.le_refl _
    · exact List.pairwise_iff_getElem.mp hsorted i j (by omega) hj hlt

/-- Three open blocks, two of them opened on one line, in a script that ends
    with a call and a carriage return.  Two lines that say `end` are not
    enough, and three or more give the program. -/
theorem ofScript_append_ends_threefold :
    let script := "function f x:\r\n start: start:\n  say \"end\"\n  f\r"
    let p : Program := ⟨[.function "f" (some "x")
      [.start [.start [.say [.literal "end"] "\\n", .call "f" none]]]]⟩
    ofScript 16 script = .error (.read (.unclosedBlock 2 4)) ∧
    ofScript 16 (script ++ Text.ends 2) =
      .error (.read (.unclosedBlock 1 6)) ∧
    ∀ j, 3 ≤ j → ofScript 16 (script ++ Text.ends j) = .ok p := by
  intro script p
  let ts : List Token := [.ofKeyword 1 .function, .ofName 1 "f", .ofName 1 "x",
    .ofMark 1 ':', .newline 1, .ofKeyword 2 .start, .ofMark 2 ':',
    .ofKeyword 2 .start, .ofMark 2 ':', .newline 2, .ofKeyword 3 .say,
    .ofText 3 "end", .newline 3, .ofName 4 "f", .newline 4, .endOfInput 4]
  have hts : Token.ofScript script = .ok ts := by decide +kernel
  have h : ofScript 16 script = .error (.read (.unclosedBlock 2 4)) := by
    rw [ofScript_of_tokens hts]
    rfl
  have htwo : ofScript 16 (script ++ Text.ends 2) =
      .error (.read (.unclosedBlock 1 6)) :=
    ofScript_of_compile_error (by decide +kernel)
  have hthree : ofScript 16 (script ++ Text.ends 3) = .ok p := by
    have htokens : Token.ofScript (script ++ Text.ends 3) = .ok
        (ts.dropLast ++ [.ofKeyword 5 .close, .newline 5, .ofKeyword 6 .close,
          .newline 6, .ofKeyword 7 .close, .newline 7, .endOfInput 7]) := by
      decide +kernel
    rw [ofScript_of_tokens htokens]
    rfl
  refine ⟨h, htwo, fun j hj => ?_⟩
  obtain ⟨k, -, ⟨opened, hfew, -⟩, p', henough⟩ :=
    ofScript_append_ends hts (by decide) h
  have hk : k ≤ 3 := by
    by_contra hlt
    obtain ⟨line, hline⟩ := hfew 3 (by omega)
    rw [hthree] at hline
    cases hline
  have hp : p = p' := Except.ok.inj (hthree.symm.trans (henough 3 hk))
  rw [hp]
  exact henough j (by omega)

/-- Of two blocks in places 2^32 - 1 and 2^32, after lines that are all empty,
    the inner one is opened on line 0 and the outer one on line 2^32 - 1. -/
theorem outer_block_on_later_line :
    let script := Text.newlines (UInt32.size - 2) ++ "start:\nstart:"
    (∃ ts, Token.ofScript script = .ok ts ∧ ts.length ≤ 10) ∧
      ofScript 10 script = .error (.read (.unclosedBlock 0 0)) ∧
      ofScript 10 (script ++ Text.ends 1) =
        .error (.read (.unclosedBlock (UInt32.size - 1) 1)) := by
  intro script
  let ts : List Token := [.ofKeyword 1 .start, .ofMark 1 ':', .newline 1,
    .ofKeyword 2 .start, .ofMark 2 ':', .newline 2, .endOfInput 2]
  have hts : Token.ofScript "start:\nstart:" = .ok ts := by decide +kernel
  have htokens := Token.ofScript_newlines_append (UInt32.size - 2)
    "start:\nstart:"
  rw [hts, Token.renumber_ok] at htokens
  have hunclosed : ofScript 10 "start:\nstart:" =
      .error (.read (.unclosedBlock 2 2)) :=
    ofScript_of_compile_error (by decide +kernel)
  have hended : ofScript 10 ("start:\nstart:" ++ Text.ends 1) =
      .error (.read (.unclosedBlock 1 3)) :=
    ofScript_of_compile_error (by decide +kernel)
  refine ⟨⟨_, htokens, by decide⟩, ?_, ?_⟩
  · rw [ofScript_newlines_append, hunclosed]
    rfl
  · rw [String.append_assoc, ofScript_newlines_append, hended]
    rfl

end Program

end SayScript
