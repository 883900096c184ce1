import SayScript.Proofs.Advice
import SayScript.Proofs.Closing
import SayScript.Proofs.Printing

/-! # Scripts in the usual form

    Blocks are found twice, and in different ways.  The advice on layout goes
    by the first words of lines, the reader by tokens, to which a word in a
    quoted text is nothing and an `end` in a `say` is something else.  They
    need not agree: two statements can stand on one line, and a line that
    starts with `if` opens no block for the reader.

    In a script with one statement on each line, written as people write
    them, they do agree: the lines on which the reader's open blocks were
    opened are those of the openers on the stack, after every line.  So the
    advice reports open blocks exactly if reading fails, and it tells how
    many lines that say `end` are missing. -/

namespace SayScript.Layout

/-- A trimmed line in the usual form, with one blank between its parts.  A
    line holds no line feed, so that every text without quotes can be quoted
    in it. -/
inductive IsConventional : String → Prop where
  | close : IsConventional "end"
  | start : IsConventional "start:"
  | function {name} : IsName name →
      IsConventional ("function " ++ name ++ ":")
  | functionWith {name parameter} : IsName name → IsName parameter →
      IsConventional ("function " ++ name ++ " " ++ parameter ++ ":")
  | set {name} : IsName name → IsConventional ("set " ++ name)
  | call {callee} : IsName callee → IsConventional callee
  | callWith {callee argument} : IsName callee →
      Operand.IsExpressible argument →
      IsConventional (callee ++ " " ++ argument.source)
  | say {fragments} : (∀ o ∈ fragments, Operand.IsExpressible o) →
      IsConventional ("say" ++ Statement.fragmentsSource fragments)
  | sayEnd {fragments terminator} :
      (∀ o ∈ fragments, Operand.IsExpressible o) → IsQuotable terminator →
      IsConventional ("say" ++ Statement.fragmentsSource fragments ++
        (" end=\"" ++ terminator ++ "\""))

/-! ## The first word of a line -/

variable {l : Line}

theorem endsFirstWord_of_isWord {word : List Char} (h : Lexeme.isWord word) :
    ∀ c ∈ word, endsFirstWord c = false := by
  intro c hc
  have hpart := Lexeme.isWordPart_of_isWord h c hc
  have hcolon : c ≠ ':' := by
    rintro rfl
    revert hpart
    decide
  simp [endsFirstWord, Lexeme.isBlank_of_isWordPart hpart, hcolon]

/-- A line whose first word is none of those that open or close a block. -/
theorem isPlain_of_word (word : String) (rest : List Char)
    (hword : Lexeme.isWord word.toList)
    (hrest : ∀ c ∈ rest.head?, endsFirstWord c)
    (hother : word ∉ "end" :: openers)
    (hcontent : l.content = word.toList ++ rest) : l.IsPlain := by
  have hfirst : firstWord l.content = word.toList := by
    rw [hcontent]
    exact Line.firstWord_append (endsFirstWord_of_isWord hword) hrest
  constructor
  · rw [Line.isOpener_iff, opensBlock, hfirst, String.ofList_toList,
      decide_eq_true_iff]
    exact fun hmem => hother (List.mem_cons_of_mem _ hmem)
  · intro hc
    rw [hc] at hfirst
    have hend : word = "end" := String.toList_inj.mp hfirst.symm
    exact hother (hend ▸ List.mem_cons_self)

theorem not_mem_openers_of_isName {name : String} (h : IsName name) :
    name ∉ "end" :: openers := by
  have hkeywords : ∀ word ∈ "end" :: openers,
      Keyword.ofSpelling? word ≠ none := by decide
  exact fun hmem => hkeywords name hmem h.2

/-! ## What one line does to both -/

/-- The tokens of the line take a reader between two lines to one whose open
    blocks are those of the stack of openers, if they were before. -/
def Line.Agrees (l : Line) : Prop :=
  ∃ ts, Token.Spells l.number l.content ts ∧
    ∀ limit n stack (r : Reader), r.pending = .idle → r.Counted n →
      n < limit → r.openLines = stack.map Line.number →
      ∃ q, Reader.Reads limit r (ts ++ [.newline l.number]) q ∧
        q.openLines = (push stack l).map Line.number

theorem hasRoom_of_counted {limit n : Nat} {r : Reader} (h : r.Counted n)
    (hn : n < limit) : r.HasRoom limit 1 := by
  have := h.level
  exact .inr (by omega)

/-- The line `end` closes a block for both. -/
theorem agrees_of_isCloser (hc : l.IsCloser) : l.Agrees := by
  have hspells := (Token.Spells.nil l.number).keyword .close
    Lexeme.endsWord_nil
  rw [List.append_nil] at hspells
  refine ⟨_, hc ▸ hspells, ?_⟩
  intro limit n stack r hp hcounted hn hopen
  have hclosable := hcounted.closable (Nat.le_of_lt hn) hp
  refine ⟨r.leave, hclosable.reads_end l.number, ?_⟩
  rw [push_of_isCloser hc, Reader.openLines_leave, hopen, List.map_tail]

/-- The first line of a block opens it for both. -/
theorem agrees_of_isOpener (header : Header) (ho : l.IsOpener)
    (hs : (header.block []).IsExpressible)
    (hcontent : l.content = (header.block []).headSource.toList) :
    l.Agrees := by
  refine ⟨_, hcontent ▸ Statement.spells_headSource hs, ?_⟩
  intro limit n stack r hp hcounted hn hopen
  have hroom := (hasRoom_of_counted hcounted hn).isOverfull
  refine ⟨_, Reader.reads_header hp hroom header [], ?_⟩
  rw [push_of_isOpener ho, List.map_cons, ← hopen]
  rfl

/-- The line of a statement without a body leaves all blocks as they are. -/
theorem agrees_of_isPlain (hplain : l.IsPlain) {s : Statement}
    (hs : s.IsExpressible) (hbody : s.body? = none)
    (hcontent : l.content = s.headSource.toList) : l.Agrees := by
  refine ⟨_, hcontent ▸ Statement.spells_headSource hs, ?_⟩
  intro limit n stack r hp hcounted hn hopen
  have hroom := hasRoom_of_counted hcounted hn
  refine ⟨_, Reader.reads_line hp hroom hbody, ?_⟩
  rw [push_of_isPlain hplain, ← hopen]
  rfl

/-- The line of a `say` with its terminator written out leaves all blocks as
    they are, even if the terminator is the default one. -/
theorem agrees_of_sayEnd (hplain : l.IsPlain) {fragments : List Operand}
    {terminator : String} (hfragments : ∀ o ∈ fragments, o.IsExpressible)
    (hterminator : IsQuotable terminator)
    (hcontent : l.content = ("say" ++ Statement.fragmentsSource fragments ++
      (" end=\"" ++ terminator ++ "\"")).toList) : l.Agrees := by
  obtain ⟨hend, hends⟩ := Statement.spells_end (n := l.number) hterminator
  have hspells := (Statement.spells_fragmentsSource hends hend _
    hfragments).keyword .say (Statement.endsWord_fragmentsSource _ hends)
  have htext : l.content = Keyword.say.spelling.toList ++
      ((Statement.fragmentsSource fragments).toList ++
        (" end=\"" ++ terminator ++ "\"").toList) := by
    rw [hcontent, String.toList_append, String.toList_append,
      List.append_assoc]
    rfl
  refine ⟨_, htext ▸ hspells, ?_⟩
  intro limit n stack r hp hcounted hn hopen
  have hroom := hasRoom_of_counted hcounted hn
  refine ⟨_, Reader.reads_ended_say hp hroom fragments terminator, ?_⟩
  rw [push_of_isPlain hplain, ← hopen]
  rfl

/-! ### The forms of a line -/

/-- The first line of a function. -/
theorem isOpener_of_function {rest : String}
    (hcontent : l.content = ("function " ++ rest).toList) : l.IsOpener := by
  refine ⟨"function", by decide, ' ' :: rest.toList, ?_, ?_⟩
  · simp [hcontent]
  · intro c hc
    cases hc
    decide

/-- A `say` with anything that does not continue its last fragment. -/
theorem isPlain_of_say {fragments : List Operand} (after : String)
    (hafter : ∀ c ∈ after.toList.head?, endsFirstWord c)
    (hcontent : l.content =
      ("say" ++ Statement.fragmentsSource fragments ++ after).toList) :
    l.IsPlain := by
  rw [String.append_assoc, String.toList_append] at hcontent
  refine isPlain_of_word "say" _ (by decide) ?_ (by decide) hcontent
  -- a fragment comes with a blank before it
  have hblank : endsFirstWord ' ' := by decide
  fun_cases Statement.fragmentsSource fragments with
  | case1 => simpa using hafter
  | case2 o => simpa using hblank
  | case3 o o' rest => simpa using hblank

/-- Every line in the usual form does the same to both. -/
theorem IsConventional.agrees
    (h : IsConventional (String.ofList l.content)) : l.Agrees := by
  -- the forms are given as texts, and the content of a line as characters
  generalize htext : String.ofList l.content = text at h
  have hcontent : l.content = text.toList := by
    rw [← htext, String.toList_ofList]
  have hblank : endsFirstWord ' ' := by decide
  cases h with
  | close => exact agrees_of_isCloser hcontent
  | start =>
    have ho : l.IsOpener :=
      ⟨"start", by decide, [':'], hcontent, by simp [endsFirstWord]⟩
    have hs : (Statement.start []).IsExpressible := by
      simp [Statement.IsExpressible, Statement.ownNames, Statement.ownTexts]
    exact agrees_of_isOpener .start ho hs hcontent
  | @function name hname =>
    have ho : l.IsOpener := by
      rw [String.append_assoc] at hcontent
      exact isOpener_of_function hcontent
    have hs : (Statement.function name none []).IsExpressible := by
      simp [Statement.IsExpressible, Statement.ownNames, Statement.ownTexts,
        hname]
    exact agrees_of_isOpener (.function name none) ho hs hcontent
  | @functionWith name parameter hname hparameter =>
    have ho : l.IsOpener := by
      rw [String.append_assoc, String.append_assoc, String.append_assoc]
        at hcontent
      exact isOpener_of_function hcontent
    have hs : (Statement.function name (some parameter) []).IsExpressible := by
      simp [Statement.IsExpressible, Statement.ownNames, Statement.ownTexts,
        hname, hparameter]
    exact agrees_of_isOpener (.function name (some parameter)) ho hs hcontent
  | @set name hname =>
    have hplain : l.IsPlain :=
      isPlain_of_word "set" (' ' :: name.toList) (by decide)
        (by simpa using hblank) (by decide) (by simp [hcontent])
    have hs : (Statement.set name).IsExpressible := by
      simp [Statement.IsExpressible, Statement.ownNames, Statement.ownTexts,
        hname]
    exact agrees_of_isPlain hplain hs rfl hcontent
  | call hcallee =>
    have hplain : l.IsPlain :=
      isPlain_of_word text [] hcallee.1 (by simp)
        (not_mem_openers_of_isName hcallee) (by simp [hcontent])
    have hs : (Statement.call text none).IsExpressible := by
      simp [Statement.IsExpressible, Statement.ownNames, Statement.ownTexts,
        hcallee]
    exact agrees_of_isPlain hplain hs rfl hcontent
  | @callWith callee argument hcallee hargument =>
    have hplain : l.IsPlain :=
      isPlain_of_word callee (' ' :: argument.source.toList) hcallee.1
        (by simpa using hblank) (not_mem_openers_of_isName hcallee)
        (by simp [hcontent])
    have hoperands : ∀ o ∈ [argument], o.IsExpressible := by simpa
    obtain ⟨hnames, htexts⟩ := Operand.forall_isExpressible_iff.mp hoperands
    have hs : (Statement.call callee (some argument)).IsExpressible :=
      ⟨List.forall_mem_cons.mpr ⟨hcallee, hnames⟩, htexts⟩
    exact agrees_of_isPlain hplain hs rfl hcontent
  | @say fragments hfragments =>
    have hsource : l.content = (Statement.say fragments
        Statement.defaultTerminator).headSource.toList := by
      rw [hcontent, Statement.headSource, Statement.terminatorSource,
        if_pos rfl, String.append_empty]
    obtain ⟨hnames, htexts⟩ := Operand.forall_isExpressible_iff.mp hfragments
    have hs : (Statement.say fragments
        Statement.defaultTerminator).IsExpressible :=
      ⟨hnames, List.forall_mem_append.mpr ⟨htexts, by decide⟩⟩
    have hplain : l.IsPlain := by
      rw [← String.append_empty (s := "say" ++ _)] at hcontent
      exact isPlain_of_say "" (by simp) hcontent
    exact agrees_of_isPlain hplain hs rfl hsource
  | @sayEnd fragments terminator hfragments hterminator =>
    have hplain : l.IsPlain := isPlain_of_say _ (by simpa using hblank) hcontent
    exact agrees_of_sayEnd hplain hfragments hterminator hcontent

/-! ## All lines of a script -/

/-- In lines of the usual form, the reader has those blocks open whose openers
    are on the stack. -/
theorem exists_reads_of_isConventional (placed : List (List Char × Nat))
    (h : ∀ l ∈ placed.filterMap Line.ofPlaced?,
      IsConventional (String.ofList l.content)) :
    ∃ body, Token.ofNumbered
        (placed.map (Prod.map id Text.lineNumber)) = .ok body ∧
      ∀ limit, body.length ≤ limit → ∃ q,
        Reader.Reads limit .initial body q ∧
        q.openLines =
          (opened (placed.filterMap Line.ofPlaced?)).map Line.number := by
  -- from the right, as the stack and the reader both take one line more
  induction placed using List.reverseRecOn with
  | nil => exact ⟨[], rfl, fun limit _ => ⟨.initial, .nil _, rfl⟩⟩
  | append_singleton placed last ih =>
    obtain ⟨line, place⟩ := last
    rw [List.filterMap_append] at h
    rw [List.filterMap_append, List.map_append, List.map_singleton,
      Prod.map_apply, id]
    obtain ⟨body, hscan, hreads⟩ := ih fun l hl =>
      h l (List.mem_append_left _ hl)
    cases hcontent : Text.content? line with
    | none =>
      have hline : [(line, place)].filterMap Line.ofPlaced? = [] := by
        simp [Line.ofPlaced?, hcontent]
      have htokens : Token.ofLine line (Text.lineNumber place) = .ok [] := by
        rw [Token.ofLine, hcontent]
      rw [hline, List.append_nil]
      refine ⟨body, ?_, hreads⟩
      rw [Token.ofNumbered_concat hscan htokens, List.append_nil]
    | some content =>
      let l : Line := ⟨place, indentation line, content⟩
      have hline : [(line, place)].filterMap Line.ofPlaced? = [l] := by
        simp [Line.ofPlaced?, hcontent, l]
      rw [hline] at h ⊢
      obtain ⟨ts, hspells, hagrees⟩ :=
        (h l (List.mem_append_right _ List.mem_cons_self)).agrees
      have htokens := Token.ofLine_of_content? hcontent hspells
      refine ⟨_, Token.ofNumbered_concat hscan htokens, ?_⟩
      intro limit hlimit
      rw [List.length_append, List.length_append, List.length_singleton]
        at hlimit
      obtain ⟨q, hq, hopen⟩ := hreads limit (by omega)
      -- the reader took no more tokens than there are in the lines before
      have hcounted := Reader.Counted.initial.reads hq
      obtain ⟨q', hq', hopen'⟩ := hagrees limit _ _ q
        (Reader.pending_of_ofNumbered hscan hq) hcounted (by omega) hopen
      refine ⟨q', hq.append hq', ?_⟩
      rw [opened_concat, hopen']

variable {script : String}

theorem exists_readsScript_of_isConventional
    (h : ∀ l ∈ linesOf script, IsConventional (String.ofList l.content)) :
    ∃ ts, Token.ofScript script = .ok ts ∧ ∀ limit, ts.length ≤ limit →
      ∃ q, Reader.ReadsScript limit script q ∧ q.Closable limit ∧
        q.openLines = (opened (linesOf script)).map Line.number := by
  obtain ⟨body, hscan, hreads⟩ :=
    exists_reads_of_isConventional (Text.placedLines script.toList) h
  have hts := Token.ofScript_of_ofNumbered hscan
  refine ⟨_, hts, fun limit hlimit => ?_⟩
  have hbody : body.length ≤ limit := by
    rw [List.length_append] at hlimit
    omega
  obtain ⟨q, hq, hopen⟩ := hreads limit hbody
  have hscript : Reader.ReadsScript limit script q := ⟨body, hscan, hq⟩
  exact ⟨q, hscript, hscript.closable hts hlimit, hopen⟩

/-- **The advice and the reader agree on blocks.**  Let all lines of a script
    that say something be in the usual form, and let the limit be at least the
    number of tokens.  The script is a program exactly if no open blocks are
    reported.  If they are, the fault gives the number of the line of the
    last opener that has no closer, and as many lines that say `end` as open
    blocks are reported are the least with which the script is a program.

    The number of a line is its place if there are fewer than 2^32. -/
theorem ofScript_of_isConventional
    (h : ∀ l ∈ linesOf script, IsConventional (String.ofList l.content)) :
    ∃ ts, Token.ofScript script = .ok ts ∧ ∀ limit, ts.length ≤ limit →
      ((∃ p, Program.ofScript limit script = .ok p) ↔
        ∀ count, .unclosedBlocks count ∉ advise script) ∧
      ∀ count, .unclosedBlocks count ∈ advise script →
        (∃ o line, IsUnclosed (linesOf script) o ∧
          (∀ o', IsUnclosed (linesOf script) o' → o'.place ≤ o.place) ∧
          Program.ofScript limit script =
            .error (.read (.unclosedBlock (Text.lineNumber o.place) line))) ∧
        (∃ p, Program.ofScript limit (script ++ Text.ends count) = .ok p) ∧
        ∀ j < count, ∀ p,
          Program.ofScript limit (script ++ Text.ends j) ≠ .ok p := by
  obtain ⟨ts, hts, hreads⟩ := exists_readsScript_of_isConventional h
  refine ⟨ts, hts, fun limit hlimit => ?_⟩
  obtain ⟨q, hq, hclosable, hopen⟩ := hreads limit hlimit
  -- every line `end` closes one block, and as many are open as the stack holds
  have hlength : q.openLines.length = (opened (linesOf script)).length := by
    rw [hopen, List.length_map]
  have hfew : ∀ j < (opened (linesOf script)).length, ∀ p,
      Program.ofScript limit (script ++ Text.ends j) ≠ .ok p := by
    intro j hj p hp
    obtain ⟨line, hline⟩ :=
      hq.ofScript_append_ends_of_lt hclosable (hlength ▸ hj)
    rw [hp] at hline
    cases hline
  have henough : ∃ p, Program.ofScript limit
      (script ++ Text.ends (opened (linesOf script)).length) = .ok p :=
    ⟨_, hq.ofScript_append_ends_of_le hclosable (Nat.le_of_eq hlength)⟩
  constructor
  · constructor
    · intro hok count hcount
      obtain ⟨p, hp⟩ := hok
      obtain ⟨rfl, hpos⟩ := unclosedBlocks_mem_advise_iff.mp hcount
      rw [← Text.append_ends_zero script] at hp
      exact hfew 0 hpos p hp
    · intro hnone
      have hzero : (opened (linesOf script)).length = 0 := by
        by_contra hne
        exact hnone _ (unclosedBlocks_mem_advise_iff.mpr ⟨rfl, by omega⟩)
      rw [hzero, Text.append_ends_zero] at henough
      exact henough
  · intro count hcount
    obtain ⟨rfl, hpos⟩ := unclosedBlocks_mem_advise_iff.mp hcount
    refine ⟨?_, henough, hfew⟩
    -- the innermost open block is that of the opener on top of the stack
    obtain ⟨o, stack, hstack⟩ := List.exists_cons_of_length_pos hpos
    have horder := inOrder_linesOf script
    have hhead : (opened (linesOf script)).head? = some o := by
      rw [hstack]
      rfl
    obtain ⟨hmem, hlast⟩ := (head?_opened_iff horder).mp hhead
    obtain ⟨line, hline⟩ :=
      hq.ofScript_append_ends_of_lt hclosable (hlength ▸ hpos)
    refine ⟨o, line, (mem_opened_iff horder.nodup).mp hmem, ?_, ?_⟩
    · intro o' ho'
      exact hlast o' ((mem_opened_iff horder.nodup).mpr ho')
    · rw [Text.append_ends_zero] at hline
      simp only [hopen, hstack] at hline
      exact hline

/-- A script with an `end` too many, quoted texts that look like headers and
    closers, and two blocks that are not closed.  The fault names the function
    on line 7, and one more `end` does not make up for both. -/
theorem ofScript_of_isConventional_quoted :
    let script := Text.unlines ["end", "function f x:",
      " say \"start:\", x end=\"end\"", " end", "start:", "# end",
      "  function g:", "f \"end\""]
    (∀ l ∈ linesOf script, IsConventional (String.ofList l.content)) ∧
    .unclosedBlocks 2 ∈ advise script ∧
    ∃ ts, Token.ofScript script = .ok ts ∧ ∀ limit, ts.length ≤ limit →
      (∃ line, Program.ofScript limit script =
        .error (.read (.unclosedBlock 7 line))) ∧
      (∃ p, Program.ofScript limit (script ++ Text.ends 2) = .ok p) ∧
      ∀ p, Program.ofScript limit (script ++ Text.ends 1) ≠ .ok p := by
  intro script
  have hlines : linesOf script = [⟨1, 0, "end".toList⟩,
      ⟨2, 0, "function f x:".toList⟩,
      ⟨3, 1, "say \"start:\", x end=\"end\"".toList⟩,
      ⟨4, 1, "end".toList⟩, ⟨5, 0, "start:".toList⟩,
      ⟨7, 2, "function g:".toList⟩, ⟨8, 0, "f \"end\"".toList⟩] := by decide
  have hopened : opened (linesOf script) =
      [⟨7, 2, "function g:".toList⟩, ⟨5, 0, "start:".toList⟩] := by
    rw [hlines]
    decide
  have h : ∀ l ∈ linesOf script, IsConventional (String.ofList l.content) := by
    have hname : IsName "f" ∧ IsName "x" ∧ IsName "g" := by decide
    have hquoted : IsQuotable "start:" ∧ IsQuotable "end" := by decide
    have hfragments : ∀ o ∈ [Operand.literal "start:", .var "x"],
        o.IsExpressible := by
      simp [Operand.IsExpressible, hquoted, hname]
    have hargument : (Operand.literal "end").IsExpressible := hquoted.2
    rw [hlines]
    simp only [List.forall_mem_cons, String.ofList_toList]
    exact ⟨.close, .functionWith hname.1 hname.2.1,
      .sayEnd hfragments hquoted.2, .close, .start, .function hname.2.2,
      .callWith hname.1 hargument, by simp⟩
  have hcount : .unclosedBlocks 2 ∈ advise script := by
    rw [unclosedBlocks_mem_advise_iff, hopened]
    decide
  obtain ⟨ts, hts, hall⟩ := ofScript_of_isConventional h
  refine ⟨h, hcount, ts, hts, fun limit hlimit => ?_⟩
  obtain ⟨⟨o, line, ho, hlast, hfault⟩, hok, hfew⟩ :=
    (hall limit hlimit).2 2 hcount
  refine ⟨⟨line, ?_⟩, hok, hfew 1 (by decide)⟩
  have hnodup := (inOrder_linesOf script).nodup
  have hseven := hlast ⟨7, 2, "function g:".toList⟩
    ((mem_opened_iff hnodup).mp (by simp [hopened]))
  rw [← mem_opened_iff hnodup, hopened] at ho
  rcases List.mem_cons.mp ho with rfl | ho
  · exact hfault
  · -- line 5 is not the last one
    rw [List.mem_singleton.mp ho] at hseven
    exact absurd hseven (by decide)

/-- Line feeds in front of a script move its lines. -/
theorem linesOf_newlines_append (n : Nat) (script : String) :
    linesOf (Text.newlines n ++ script) =
      (linesOf script).map fun l => { l with place := l.place + n } := by
  have hnone : (Text.placedLines (Text.newlines n).toList).filterMap
      Line.ofPlaced? = [] := by
    refine List.filterMap_eq_nil_iff.mpr fun l hl => ?_
    have hmem := List.fst_mem_of_mem_zipIdx hl
    rw [Text.lines_newlines] at hmem
    rw [Line.ofPlaced?, List.eq_of_mem_replicate hmem]
    rfl
  rw [linesOf, Text.placedLines_toList_append (Text.newlines_eq_or_getLast? n),
    List.filterMap_append, hnone, List.nil_append, List.filterMap_map,
    Text.length_lines_newlines, linesOf, List.map_filterMap]
  apply congrArg (List.filterMap · _)
  funext l
  rw [Function.comp_apply, Line.ofPlaced?, Line.ofPlaced?, Option.map_map]
  rfl

/-- A block that is opened in place 2^32, after lines that are all empty, is
    reported as opened on line 0. -/
theorem unclosedBlock_opened_on_line_zero :
    let script := Text.newlines (UInt32.size - 1) ++ "start:"
    let o : Line := ⟨UInt32.size, 0, "start:".toList⟩
    linesOf script = [o] ∧ IsConventional (String.ofList o.content) ∧
      .unclosedBlocks 1 ∈ advise script ∧
      Program.ofScript 10 script = .error (.read (.unclosedBlock 0 0)) := by
  intro script o
  have hlines : linesOf script = [o] := by
    rw [linesOf_newlines_append]
    rfl
  have hunclosed : Program.ofScript 10 "start:" =
      .error (.read (.unclosedBlock 1 1)) :=
    ofScript_of_compile_error (by decide +kernel)
  refine ⟨hlines, .start, ?_, ?_⟩
  · rw [unclosedBlocks_mem_advise_iff, hlines]
    decide
  · rw [Program.ofScript_newlines_append, hunclosed]
    rfl

end SayScript.Layout
