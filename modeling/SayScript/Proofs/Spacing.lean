import SayScript.Proofs.Lines
import SayScript.Proofs.Relabelling

/-! # The layout of a script

    How the lines of a script are indented, how they end, and which blank
    lines and comments stand between them is its layout.  What the script
    says is left when the layout is taken away: `Text.contents`.  Two scripts
    that say the same have the same tokens and the same C++ text, or the same
    fault, but for the line numbers.

    To compare the line numbers, both scripts are compared with a third list
    of tokens, in which the number of a token is its position.  Each script
    has these tokens with the numbers replaced, so each has the fault of the
    third one with its numbers replaced.  Scanning is treated the same way,
    with the positions of lines for those of tokens. -/

namespace SayScript

/-! ## What a script says -/

namespace Text

/-- Is a trimmed line neither empty nor a comment? -/
def isContent (line : List Char) : Bool :=
  !line.isEmpty && line.head? ≠ some '#'

/-- What the lines of a text say, trimmed. -/
def contents (text : List Char) : List (List Char) :=
  ((lines text).map trim).filter isContent

/-- What the lines of a text say, with the numbers of the lines. -/
def numberedContents (text : List Char) : List (List Char × Nat) :=
  ((numberedLines text).map (Prod.map trim id)).filter fun l => isContent l.1

theorem map_fst_numberedContents (text : List Char) :
    (numberedContents text).map Prod.fst = contents text := by
  have htrim : (lines text).map trim =
      ((numberedLines text).map (Prod.map trim id)).map Prod.fst := by
    rw [← map_fst_numberedLines, List.map_map, List.map_map]
    rfl
  rw [contents, htrim, List.filter_map]
  rfl

theorem isBlank_head?_dropWhile (cs : List Char) :
    ∀ c ∈ (cs.dropWhile isBlank).head?, isBlank c = false := by
  intro c hc
  have := List.head?_dropWhile_not isBlank cs
  rw [hc] at this
  exact this

theorem isBlank_getLast?_trim (cs : List Char) :
    ∀ c ∈ (trim cs).getLast?, isBlank c = false := by
  rw [trim, trimEnd, List.getLast?_reverse]
  exact isBlank_head?_dropWhile _

theorem isBlank_head?_trim (cs : List Char) :
    ∀ c ∈ (trim cs).head?, isBlank c = false := by
  intro c hc
  -- trimming at the end leaves the first character, if it leaves any
  obtain ⟨rest, hrest⟩ := trim_prefix_trimStart cs
  refine isBlank_head?_dropWhile cs c ?_
  rw [← trimStart, ← hrest, List.head?_append, hc]
  rfl

@[simp] theorem trim_trim (cs : List Char) : trim (trim cs) = trim cs :=
  @trim_append [] (trim cs) (by simp) (isBlank_head?_trim cs)
    (isBlank_getLast?_trim cs)

theorem content?_eq (line : List Char) :
    content? line = if isContent (trim line) then some (trim line) else none := by
  unfold content? isContent
  cases trim line with
  | nil => rfl
  | cons c cs => by_cases hc : c = '#' <;> simp [hc]

end Text

namespace Token

variable {line : List Char} {number : Nat}

theorem ofLine_trim (line : List Char) (number : Nat) :
    ofLine (Text.trim line) number = ofLine line number := by
  simp only [ofLine, Text.content?_eq, Text.trim_trim]

theorem ofLine_of_not_isContent (h : Text.isContent (Text.trim line) = false) :
    ofLine line number = .ok [] := by
  simp only [ofLine, Text.content?_eq, h, Bool.false_eq_true, if_false]

/-- Only what the lines say is scanned. -/
theorem ofNumbered_numberedContents (text : List Char) :
    ofNumbered (Text.numberedContents text) =
      ofNumbered (Text.numberedLines text) := by
  unfold Text.numberedContents
  induction Text.numberedLines text with
  | nil => rfl
  | cons l ls ih =>
    obtain ⟨line, number⟩ := l
    rw [List.map_cons, Prod.map_apply, id, List.filter_cons]
    split
    · rw [ofNumbered, ofNumbered, ih, ofLine_trim]
    · rename_i hcontent
      rw [ih, ofNumbered, ofLine_of_not_isContent (by simpa using hcontent)]
      cases ofNumbered ls <;> rfl

end Token

/-! ## Positions for line numbers -/

/-- The number in the given place of a list. -/
def numberAt (numbers : List Nat) (i : Nat) : Nat :=
  numbers[i]?.getD 0

theorem mem_zip_numberAt {numbers numbers' : List Nat} {i : Nat}
    (h : i < numbers.length) (h' : i < numbers'.length) :
    (numberAt numbers i, numberAt numbers' i) ∈ numbers.zip numbers' := by
  have hzip : i < (numbers.zip numbers').length := by
    rw [List.length_zip]
    omega
  refine List.mem_iff_getElem.mpr ⟨i, hzip, ?_⟩
  simp [numberAt, h, h']

namespace Text

/-- The numbers of the lines that say something. -/
def contentNumbers (text : List Char) : List Nat :=
  (numberedContents text).map Prod.snd

theorem length_contentNumbers (text : List Char) :
    (contentNumbers text).length = (contents text).length := by
  rw [contentNumbers, ← map_fst_numberedContents, List.length_map,
    List.length_map]

/-- Each line has the number for its place among the lines that say
    something. -/
theorem numberedContents_eq (text : List Char) :
    numberedContents text = (contents text).zipIdx.map
      (Prod.map id (numberAt (contentNumbers text))) := by
  rw [← map_fst_numberedContents]
  refine List.ext_getElem (by simp) ?_
  intro i h h'
  simp [numberAt, contentNumbers, h]

end Text

namespace Token

variable {t : Token} {script script' : String}

/-- The kind and the text of a token, without its line number. -/
def bare (t : Token) : Kind × String :=
  (t.kind, t.text)

/-- Tokens with the given kinds and texts, each numbered by its position. -/
def placed (bs : List (Kind × String)) : List Token :=
  bs.mapIdx fun i b => ⟨b.1, b.2, i⟩

theorem map_placed (ts : List Token) :
    (placed (ts.map bare)).map (mapLine (numberAt (ts.map line))) = ts := by
  refine List.ext_getElem (by simp [placed]) ?_
  intro i h h'
  simp [placed, numberAt, mapLine, bare, h']

theorem line_lt_of_mem_placed {bs : List (Kind × String)}
    (h : t ∈ placed bs) : t.line < bs.length := by
  obtain ⟨i, hi, rfl⟩ := List.mem_mapIdx.mp h
  exact hi

theorem map_bare_mapLine (h : Nat → Nat) (ts : List Token) :
    (ts.map (mapLine h)).map bare = ts.map bare := by
  rw [List.map_map]
  rfl

/-- A script has the tokens of what it says, under the numbers of its
    lines. -/
theorem ofScript_eq_renumber (script : String) :
    ofScript script =
      (renumber (numberAt (Text.contentNumbers script.toList))
        (ofNumbered (Text.contents script.toList).zipIdx)).map
        (· ++ [endOfInput
          (Text.lineNumber (Text.lines script.toList).length)]) := by
  rw [ofScript_eq, ← ofNumbered_numberedContents, Text.numberedContents_eq,
    ofNumbered_renumber]

/-- Scripts that say the same have faults on corresponding lines, or the
    same tokens. -/
theorem ofScript_of_contents_eq
    (h : Text.contents script.toList = Text.contents script'.toList) :
    (∃ f f', ofScript script = .error f ∧ ofScript script' = .error f' ∧
      (f.line, f'.line) ∈ (Text.contentNumbers script.toList).zip
        (Text.contentNumbers script'.toList)) ∨
    ∃ ts ts', ofScript script = .ok ts ∧ ofScript script' = .ok ts' ∧
      ts.map bare = ts'.map bare := by
  rw [ofScript_eq_renumber, ofScript_eq_renumber, ← h]
  cases hscan : ofNumbered (Text.contents script.toList).zipIdx with
  | error f =>
    -- the fault is in one of the lines
    obtain ⟨line, hline, -⟩ := exists_mem_of_ofNumbered_error hscan
    have hlt : f.line < (Text.contentNumbers script.toList).length := by
      rw [Text.length_contentNumbers]
      simpa using List.snd_lt_add_of_mem_zipIdx hline
    have hlt' : f.line < (Text.contentNumbers script'.toList).length := by
      rwa [Text.length_contentNumbers, ← h, ← Text.length_contentNumbers]
    refine .inl ⟨f.mapLine _, f.mapLine _, rfl, rfl, ?_⟩
    rw [ScanFault.line_mapLine, ScanFault.line_mapLine]
    exact mem_zip_numberAt hlt hlt'
  | ok ts =>
    refine .inr ⟨_, _, rfl, rfl, ?_⟩
    rw [List.map_append, List.map_append, map_bare_mapLine, map_bare_mapLine]
    rfl

end Token

/-! ## Corresponding faults -/

/-- The faults are the same, but for their line numbers, which are paired
    in the list. -/
inductive ReadFault.Corresponds (pairs : List (Nat × Nat)) :
    ReadFault → ReadFault → Prop where
  | expected (slot : Slot) (found : String) {line line' : Nat} :
      (line, line') ∈ pairs →
      Corresponds pairs (.expected slot found line)
        (.expected slot found line')
  | unexpected (found : String) {line line' : Nat} :
      (line, line') ∈ pairs →
      Corresponds pairs (.unexpected found line) (.unexpected found line')
  | unclosedBlock {openedAt openedAt' line line' : Nat} :
      (openedAt, openedAt') ∈ pairs → (line, line') ∈ pairs →
      Corresponds pairs (.unclosedBlock openedAt line)
        (.unclosedBlock openedAt' line')
  | blockLimit (limit : Nat) {line line' : Nat} : (line, line') ∈ pairs →
      Corresponds pairs (.blockLimit limit line) (.blockLimit limit line')

theorem ReadFault.corresponds_mapLines {pairs : List (Nat × Nat)}
    {h h' : Nat → Nat} {e : ReadFault}
    (hpairs : ∀ i ∈ e.lines, (h i, h' i) ∈ pairs) :
    Corresponds pairs (e.mapLines h) (e.mapLines h') := by
  cases e with
  | expected slot found line =>
    exact .expected slot found (hpairs line (by simp [lines]))
  | unexpected found line =>
    exact .unexpected found (hpairs line (by simp [lines]))
  | unclosedBlock openedAt line =>
    exact .unclosedBlock (hpairs openedAt (by simp [lines]))
      (hpairs line (by simp [lines]))
  | blockLimit limit line =>
    exact .blockLimit limit (hpairs line (by simp [lines]))

/-- Tokens of the same kinds and texts are read as the same program, or have
    the same fault on the lines of corresponding tokens. -/
theorem Program.ofTokens_of_bare_eq (limit : Nat) {ts ts' : List Token}
    (h : ts.map Token.bare = ts'.map Token.bare) :
    (∃ p, ofTokens limit ts = .ok p ∧ ofTokens limit ts' = .ok p) ∨
    ∃ e e', ofTokens limit ts = .error e ∧ ofTokens limit ts' = .error e' ∧
      e.Corresponds ((ts.map Token.line).zip (ts'.map Token.line)) e' := by
  have hts := ofTokens_mapLine (numberAt (ts.map Token.line)) limit
    (Token.placed (ts.map Token.bare))
  have hts' := ofTokens_mapLine (numberAt (ts'.map Token.line)) limit
    (Token.placed (ts'.map Token.bare))
  rw [Token.map_placed] at hts hts'
  rw [← h] at hts'
  cases hread : ofTokens limit (Token.placed (ts.map Token.bare)) with
  | ok p =>
    rw [hread] at hts hts'
    exact .inl ⟨p, hts, hts'⟩
  | error e =>
    rw [hread] at hts hts'
    refine .inr ⟨_, _, hts, hts', ReadFault.corresponds_mapLines ?_⟩
    intro i hi
    obtain ⟨t, ht, rfl⟩ := exists_token_of_mem_lines hread i hi
    have hlt := Token.line_lt_of_mem_placed ht
    have hlength := congrArg List.length h
    simp only [List.length_map] at hlt hlength
    exact mem_zip_numberAt (by simpa using hlt)
      (by simpa using hlength ▸ hlt)

/-- The rejections of two scripts are the same, but for the lines.  Those of
    a quote correspond among the lines that say something; all others are
    the lines of corresponding tokens. -/
inductive Rejection.Corresponds (script script' : String) :
    Rejection → Rejection → Prop where
  | scan {f f' : ScanFault} :
      (f.line, f'.line) ∈ (Text.contentNumbers script.toList).zip
        (Text.contentNumbers script'.toList) →
      Corresponds script script' (.scan f) (.scan f')
  | read {ts ts' : List Token} {e e' : ReadFault} :
      Token.ofScript script = .ok ts → Token.ofScript script' = .ok ts' →
      e.Corresponds ((ts.map Token.line).zip (ts'.map Token.line)) e' →
      Corresponds script script' (.read e) (.read e')

theorem Program.ofScript_of_contents_eq (limit : Nat)
    {script script' : String}
    (h : Text.contents script.toList = Text.contents script'.toList) :
    (∃ p, ofScript limit script = .ok p ∧ ofScript limit script' = .ok p) ∨
    ∃ e e', ofScript limit script = .error e ∧
      ofScript limit script' = .error e' ∧
      e.Corresponds script script' e' := by
  rcases Token.ofScript_of_contents_eq h with
    ⟨f, f', hf, hf', hlines⟩ | ⟨ts, ts', hts, hts', hbare⟩
  · right
    rw [ofScript, ofScript, hf, hf']
    exact ⟨_, _, rfl, rfl, .scan hlines⟩
  · rw [ofScript_of_tokens hts, ofScript_of_tokens hts']
    rcases ofTokens_of_bare_eq limit hbare with
      ⟨p, hp, hp'⟩ | ⟨e, e', he, he', hlines⟩
    · rw [hp, hp']
      exact .inl ⟨p, rfl, rfl⟩
    · rw [he, he']
      exact .inr ⟨_, _, rfl, rfl, .read hts hts' hlines⟩

/-- **Layout does not matter.**  Two scripts that say the same both have no
    tokens, or have tokens of the same kinds and texts.  They have the same
    C++ text, or are rejected for the same reason on corresponding lines. -/
theorem compile_of_contents_eq (limit : Nat) {script script' : String}
    (h : Text.contents script.toList = Text.contents script'.toList) :
    ((∃ f f', Token.ofScript script = .error f ∧
        Token.ofScript script' = .error f') ∨
      ∃ ts ts', Token.ofScript script = .ok ts ∧
        Token.ofScript script' = .ok ts' ∧
        ts.map Token.bare = ts'.map Token.bare) ∧
    (∀ text, compile limit script = .ok text ↔
      compile limit script' = .ok text) ∧
    (∀ e e', compile limit script = .error e →
      compile limit script' = .error e' →
      e.Corresponds script script' e') := by
  constructor
  · rcases Token.ofScript_of_contents_eq h with ⟨f, f', hf, hf', -⟩ | htokens
    · exact .inl ⟨f, f', hf, hf'⟩
    · exact .inr htokens
  · unfold compile
    rcases Program.ofScript_of_contents_eq limit h with
      ⟨p, hp, hp'⟩ | ⟨e, e', he, he', hlines⟩
    · rw [hp, hp']
      refine ⟨fun text => .rfl, ?_⟩
      intro e e' he
      cases he
    · rw [he, he']
      constructor
      · intro text
        constructor <;> (intro htext; cases htext)
      · intro d d' hd hd'
        cases hd
        cases hd'
        exact hlines

/-- A program and an open block, each in two layouts that differ in
    indentation, line ends, blank lines and comments. -/
theorem compile_of_contents_eq_indented :
    let plain := "start:\nsay \"hi\"\nend"
    let spaced := "# note\r\n\r\n start:\t\r\n  say \"hi\" \n\n end\r\n"
    let unclosed := "start:\nset x"
    let unclosedSpaced := "\n start:\r\n # note\n\tset x\r\n\n"
    Text.contents plain.toList = Text.contents spaced.toList ∧
    compile 5 spaced =
      .ok (Program.text ⟨[.start [.say [.literal "hi"] "\\n"]]⟩) ∧
    Text.contents unclosed.toList = Text.contents unclosedSpaced.toList ∧
    Rejection.Corresponds unclosed unclosedSpaced
      (.read (.unclosedBlock 1 2)) (.read (.unclosedBlock 2 5)) := by
  intro plain spaced unclosed unclosedSpaced
  have hsame : Text.contents plain.toList = Text.contents spaced.toList := by
    decide +kernel
  have hplain : compile 5 plain =
      .ok (Program.text ⟨[.start [.say [.literal "hi"] "\\n"]]⟩) := by
    decide +kernel
  have hsame' : Text.contents unclosed.toList =
      Text.contents unclosedSpaced.toList := by decide +kernel
  have hunclosed : compile 5 unclosed =
      .error (.read (.unclosedBlock 1 2)) := by decide +kernel
  have hunclosedSpaced : compile 5 unclosedSpaced =
      .error (.read (.unclosedBlock 2 5)) := by decide +kernel
  exact ⟨hsame, ((compile_of_contents_eq 5 hsame).2.1 _).mp hplain, hsame',
    (compile_of_contents_eq 5 hsame').2.2 _ _ hunclosed hunclosedSpaced⟩

end SayScript
