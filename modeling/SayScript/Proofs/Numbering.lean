import SayScript.Compile

/-! # Numbered lines

    A script is scanned line by line.  The number of a line is written into
    its tokens, or into the fault, and nothing else depends on it: scanning
    under other numbers gives the same tokens with other numbers,
    `ofNumbered_renumber`.

    `Token.ofNumbered` scans any list of lines that come with their numbers.
    A script is the special case of the numbers of places, followed by the
    end of the input.

    Two lines can have the same number, but not the same place.  With fewer
    than 2^32 lines the number of each line is its place,
    `Text.numberedLines_of_lt`. -/

namespace SayScript

/-- Results can be compared, so that what a given script leads to is found by
    evaluation. -/
instance decidableEqExcept {ε α : Type} [DecidableEq ε] [DecidableEq α] :
    DecidableEq (Except ε α)
  | .ok a, .ok b => decidable_of_iff (a = b) (by simp)
  | .error e, .error f => decidable_of_iff (e = f) (by simp)
  | .ok _, .error _ => isFalse nofun
  | .error _, .ok _ => isFalse nofun

namespace Text

/-- The lines of a text, each with its place, counted from 1. -/
def placedLines (text : List Char) : List (List Char × Nat) :=
  (lines text).zipIdx 1

variable {text : List Char} {place : Nat}

theorem lineNumber_of_lt (h : place < UInt32.size) :
    lineNumber place = place :=
  Nat.mod_eq_of_lt h

theorem lineNumber_lineNumber_add (place n : Nat) :
    lineNumber (lineNumber place + n) = lineNumber (place + n) :=
  Nat.mod_add_mod place UInt32.size n

/-- A line has the number for its place. -/
theorem numberedLines_eq (text : List Char) :
    numberedLines text = (placedLines text).map (Prod.map id lineNumber) := rfl

theorem map_fst_numberedLines (text : List Char) :
    (numberedLines text).map Prod.fst = lines text := by
  rw [numberedLines_eq, List.map_map]
  exact List.zipIdx_map_fst 1 (lines text)

theorem mem_lines_of_mem_numberedLines {l : List Char × Nat}
    (h : l ∈ numberedLines text) : l.1 ∈ lines text := by
  rw [← map_fst_numberedLines]
  exact List.mem_map_of_mem h

/-- The place of a line is one of those from 1 to the number of lines. -/
theorem place_of_mem_placedLines {l : List Char × Nat}
    (h : l ∈ placedLines text) : 1 ≤ l.2 ∧ l.2 ≤ (lines text).length := by
  have hfirst := List.le_snd_of_mem_zipIdx h
  have hlast := List.snd_lt_of_mem_zipIdx h
  omega

/-- With fewer than 2^32 lines, the number of each line is its place. -/
theorem numberedLines_of_lt (h : (lines text).length < UInt32.size) :
    numberedLines text = placedLines text := by
  have hsame : ∀ l ∈ placedLines text, Prod.map id lineNumber l = l := by
    intro l hl
    have hplace := (place_of_mem_placedLines hl).2
    rw [Prod.map, lineNumber_of_lt (by omega)]
    rfl
  rw [numberedLines_eq, List.map_congr_left hsame, List.map_id']

/-- The places of lines increase. -/
theorem pairwise_placedLines (text : List Char) :
    (placedLines text).Pairwise fun l l' => l.2 < l'.2 := by
  rw [← List.pairwise_map, placedLines, List.zipIdx_map_snd]
  exact List.pairwise_lt_range'

theorem nodup_placedLines (text : List Char) :
    ((placedLines text).map Prod.snd).Nodup :=
  List.pairwise_map.mpr ((pairwise_placedLines text).imp Nat.ne_of_lt)

end Text

/-- The fault with another number for its line. -/
def ScanFault.mapLine (h : Nat → Nat) (f : ScanFault) : ScanFault :=
  { line := h f.line }

theorem ScanFault.line_mapLine (h : Nat → Nat) (f : ScanFault) :
    (f.mapLine h).line = h f.line := rfl

namespace Token

/-- The token with another number for its line. -/
def mapLine (h : Nat → Nat) (t : Token) : Token :=
  { t with line := h t.line }

/-- The tokens of lines that come with their numbers. -/
def ofNumbered : List (List Char × Nat) → Except ScanFault (List Token)
  | [] => .ok []
  | (line, number) :: rest => do
    let ts ← ofLine line number
    let ts' ← ofNumbered rest
    return ts ++ ts'

/-- What scanning gave, with other numbers for the lines. -/
def renumber (h : Nat → Nat) (scanned : Except ScanFault (List Token)) :
    Except ScanFault (List Token) :=
  (scanned.map (List.map (mapLine h))).mapError (ScanFault.mapLine h)

theorem renumber_ok (h : Nat → Nat) (ts : List Token) :
    renumber h (.ok ts) = .ok (ts.map (mapLine h)) := rfl

variable {line : List Char} {number : Nat} {script : String}
  {ls : List (List Char × Nat)} {ts ts' : List Token} {f : ScanFault}

theorem ofNumbered_cons_eq_ok (h : ofNumbered ((line, number) :: ls) = .ok ts) :
    ∃ first rest, ofLine line number = .ok first ∧
      ofNumbered ls = .ok rest ∧ ts = first ++ rest := by
  rw [ofNumbered] at h
  cases hfirst : ofLine line number with
  | error fault =>
    rw [hfirst] at h
    cases h
  | ok first =>
    rw [hfirst] at h
    cases hrest : ofNumbered ls with
    | error fault =>
      rw [hrest] at h
      cases h
    | ok rest =>
      rw [hrest] at h
      cases h
      exact ⟨first, rest, rfl, rfl, rfl⟩

/-- The tokens of a line with its number; none if it has a fault. -/
def lineTokens (l : List Char × Nat) : List Token :=
  match ofLine l.1 l.2 with
  | .ok ts => ts
  | .error _ => []

theorem lineTokens_of_ofLine {l : List Char × Nat}
    (h : ofLine l.1 l.2 = .ok ts) : lineTokens l = ts := by
  rw [lineTokens, h]

/-- Lines are scanned one by one. -/
theorem ofNumbered_eq_ok_iff : ofNumbered ls = .ok ts ↔
    (∀ l ∈ ls, ofLine l.1 l.2 = .ok (lineTokens l)) ∧
      ts = ls.flatMap lineTokens := by
  induction ls generalizing ts with
  | nil => simp [ofNumbered, eq_comm]
  | cons l ls ih =>
    obtain ⟨line, number⟩ := l
    rw [List.forall_mem_cons, List.flatMap_cons]
    constructor
    · intro h
      obtain ⟨first, rest, hfirst, hrest, rfl⟩ := ofNumbered_cons_eq_ok h
      obtain ⟨hall, rfl⟩ := ih.mp hrest
      have heq := lineTokens_of_ofLine (l := (line, number)) hfirst
      rw [heq]
      exact ⟨⟨hfirst, hall⟩, rfl⟩
    · rintro ⟨⟨hfirst, hall⟩, rfl⟩
      have hrest := ih.mpr ⟨hall, rfl⟩
      rw [ofNumbered, hfirst, hrest]
      rfl

theorem ofNumbered_append (ls ls' : List (List Char × Nat)) :
    ofNumbered (ls ++ ls') = do
      let ts ← ofNumbered ls
      let ts' ← ofNumbered ls'
      return ts ++ ts' := by
  induction ls with
  | nil =>
    cases h : ofNumbered ls' <;> simp [ofNumbered, h] <;> rfl
  | cons l ls ih =>
    obtain ⟨line, number⟩ := l
    simp only [List.cons_append, ofNumbered, ih, bind_assoc, pure_bind,
      List.append_assoc]

theorem ofNumbered_concat (h : ofNumbered ls = .ok ts)
    (h' : ofLine line number = .ok ts') :
    ofNumbered (ls ++ [(line, number)]) = .ok (ts ++ ts') := by
  have hlast : ofNumbered [(line, number)] = .ok (ts' ++ []) := by
    rw [ofNumbered, h']
    rfl
  rw [ofNumbered_append, h, hlast, List.append_nil]
  rfl

theorem ofLines_eq (lines : List (List Char)) :
    ofLines lines = (ofNumbered (Text.numbered lines)).map
      (· ++ [endOfInput (Text.lineNumber lines.length)]) := by
  have hflatten : ∀ ls : List (List Char × Nat),
      (ls.mapM fun l => ofLine l.1 l.2).map List.flatten =
        ofNumbered ls := by
    intro ls
    induction ls with
    | nil => rfl
    | cons l ls ih =>
      obtain ⟨line, number⟩ := l
      rw [List.mapM_cons, ofNumbered, ← ih]
      dsimp only
      cases ofLine line number with
      | error fault => rfl
      | ok first => cases ls.mapM fun l => ofLine l.1 l.2 <;> rfl
  have hlines : ofLines lines =
      ((Text.numbered lines).mapM fun l => ofLine l.1 l.2).map
        (·.flatten ++ [endOfInput (Text.lineNumber lines.length)]) := rfl
  rw [hlines, ← hflatten]
  cases (Text.numbered lines).mapM fun l => ofLine l.1 l.2 <;> rfl

/-- A script has the tokens of its lines, and the end of the input. -/
theorem ofScript_eq (script : String) :
    ofScript script = (ofNumbered (Text.numberedLines script.toList)).map
      (· ++ [endOfInput
        (Text.lineNumber (Text.lines script.toList).length)]) :=
  ofLines_eq _

theorem ofScript_of_ofNumbered
    (h : ofNumbered (Text.numberedLines script.toList) = .ok ts) :
    ofScript script = .ok (ts ++ [endOfInput
      (Text.lineNumber (Text.lines script.toList).length)]) := by
  rw [ofScript_eq, h]
  rfl

theorem ofScript_eq_error_iff :
    ofScript script = .error f ↔
      ofNumbered (Text.numberedLines script.toList) = .error f := by
  rw [ofScript_eq]
  cases ofNumbered (Text.numberedLines script.toList) with
  | error f' => exact .rfl
  | ok ts => constructor <;> (intro h; cases h)

/-! ## Other numbers -/

theorem ofLine_renumber (h : Nat → Nat) (line : List Char) (number : Nat) :
    ofLine line (h number) = renumber h (ofLine line number) := by
  have htoken : Lexeme.token? (h number) =
      fun l => (Lexeme.token? number l).map (mapLine h) := by
    funext l
    cases l <;> rfl
  unfold ofLine
  split
  · rfl
  · split
    · rfl
    · rw [renumber_ok, htoken, List.map_append, List.map_filterMap]
      rfl

/-- The numbers of the lines are written into the tokens and do nothing
    else. -/
theorem ofNumbered_renumber (h : Nat → Nat) (ls : List (List Char × Nat)) :
    ofNumbered (ls.map (Prod.map id h)) = renumber h (ofNumbered ls) := by
  induction ls with
  | nil => rfl
  | cons l ls ih =>
    obtain ⟨line, number⟩ := l
    rw [List.map_cons, Prod.map_apply, id, ofNumbered, ofNumbered, ih,
      ofLine_renumber]
    cases ofLine line number with
    | error fault => rfl
    | ok first =>
      cases ofNumbered ls with
      | error fault => rfl
      | ok rest =>
        simp only [renumber_ok, bind, Except.bind, pure, Except.pure,
          List.map_append]

theorem line_of_ofLine_error (h : ofLine line number = .error f) :
    f.line = number := by
  unfold ofLine at h
  split at h
  · cases h
  · split at h <;> cases h
    rfl

theorem ofNumbered_cons_eq_error
    (h : ofNumbered ((line, number) :: ls) = .error f) :
    ofLine line number = .error f ∨
      (∃ ts, ofLine line number = .ok ts) ∧ ofNumbered ls = .error f := by
  rw [ofNumbered] at h
  cases hfirst : ofLine line number with
  | error fault =>
    rw [hfirst] at h
    exact .inl h
  | ok first =>
    rw [hfirst] at h
    cases hrest : ofNumbered ls with
    | error fault =>
      rw [hrest] at h
      exact .inr ⟨⟨first, rfl⟩, h⟩
    | ok rest =>
      rw [hrest] at h
      cases h

/-- The first line with a fault decides. -/
theorem ofNumbered_eq_error (h : ofNumbered ls = .error f) :
    ∃ before line after, ls = before ++ (line, f.line) :: after ∧
      (∀ l ∈ before, ∃ ts, ofLine l.1 l.2 = .ok ts) ∧
      ofLine line f.line = .error f := by
  induction ls with
  | nil => cases h
  | cons l ls ih =>
    obtain ⟨line, number⟩ := l
    rcases ofNumbered_cons_eq_error h with hfirst | ⟨hok, hrest⟩
    · have hnumber := line_of_ofLine_error hfirst
      subst hnumber
      exact ⟨[], line, ls, rfl, by simp, hfirst⟩
    · obtain ⟨before, line', after, rfl, hbefore, hline⟩ := ih hrest
      exact ⟨(line, number) :: before, line', after, rfl,
        List.forall_mem_cons.mpr ⟨hok, hbefore⟩, hline⟩

/-! ## The lines of tokens and faults -/

theorem isSome_content?_of_ofLine_error (h : ofLine line number = .error f) :
    (Text.content? line).isSome := by
  unfold ofLine at h
  split at h
  · cases h
  · rename_i hcontent
    rw [hcontent]
    rfl

/-- A fault names a line that was scanned and says something. -/
theorem exists_mem_of_ofNumbered_error (h : ofNumbered ls = .error f) :
    ∃ line, (line, f.line) ∈ ls ∧ (Text.content? line).isSome := by
  obtain ⟨before, line, after, rfl, -, hline⟩ := ofNumbered_eq_error h
  exact ⟨line, by simp, isSome_content?_of_ofLine_error hline⟩

theorem of_mem_ofLine {t : Token} (h : ofLine line number = .ok ts)
    (ht : t ∈ ts) : t.line = number ∧ (Text.content? line).isSome := by
  unfold ofLine at h
  split at h
  · cases h
    cases ht
  · rename_i hcontent
    refine ⟨?_, by rw [hcontent]; rfl⟩
    split at h <;> cases h
    rcases List.mem_append.mp ht with ht | ht
    · -- each lexeme gives its token the number of the line
      obtain ⟨l, -, hl⟩ := List.mem_filterMap.mp ht
      cases l <;> cases hl <;> rfl
    · rw [List.mem_singleton.mp ht]
      rfl

theorem line_of_mem_lineTokens {l : List Char × Nat} {t : Token}
    (ht : t ∈ lineTokens l) : t.line = l.2 := by
  unfold lineTokens at ht
  split at ht
  · rename_i hline
    exact (of_mem_ofLine hline ht).1
  · cases ht

theorem exists_ofLine_of_mem {t : Token} (h : ofNumbered ls = .ok ts)
    (ht : t ∈ ts) :
    ∃ l ∈ ls, ∃ found, ofLine l.1 l.2 = .ok found ∧ t ∈ found := by
  obtain ⟨hall, rfl⟩ := ofNumbered_eq_ok_iff.mp h
  obtain ⟨l, hl, ht⟩ := List.mem_flatMap.mp ht
  exact ⟨l, hl, _, hall l hl, ht⟩

/-- A token stands on a line that was scanned and says something. -/
theorem exists_mem_of_mem_ofNumbered {t : Token} (h : ofNumbered ls = .ok ts)
    (ht : t ∈ ts) :
    ∃ line, (line, t.line) ∈ ls ∧ (Text.content? line).isSome := by
  obtain ⟨l, hl, found, hfound, ht⟩ := exists_ofLine_of_mem h ht
  obtain ⟨hline, hcontent⟩ := of_mem_ofLine hfound ht
  rw [hline]
  exact ⟨l.1, hl, hcontent⟩

/-- Where no two lines have the same number, the tokens with the number of a
    line are those found in it. -/
theorem filter_line_flatMap (hnodup : (ls.map Prod.snd).Nodup)
    {l : List Char × Nat} (hl : l ∈ ls) :
    (ls.flatMap lineTokens).filter (fun t => t.line = l.2) =
      lineTokens l := by
  have hsame : ∀ l' : List Char × Nat, l'.2 = l.2 →
      (lineTokens l').filter (fun t => t.line = l.2) = lineTokens l' := by
    intro l' heq
    refine List.filter_eq_self.mpr fun t ht => ?_
    simp [line_of_mem_lineTokens ht, heq]
  have hother : ∀ l' : List Char × Nat, l'.2 ≠ l.2 →
      (lineTokens l').filter (fun t => t.line = l.2) = [] := by
    intro l' hne
    refine List.filter_eq_nil_iff.mpr fun t ht => ?_
    simp [line_of_mem_lineTokens ht, hne]
  induction ls with
  | nil => cases hl
  | cons first ls ih =>
    rw [List.map_cons, List.nodup_cons] at hnodup
    obtain ⟨hfirst, hnodup⟩ := hnodup
    rw [List.flatMap_cons, List.filter_append]
    rcases List.mem_cons.mp hl with rfl | hl
    · -- none of the lines after it has its number
      have hrest : (ls.flatMap lineTokens).filter (fun t => t.line = l.2) =
          [] := by
        rw [List.filter_flatMap, List.flatMap_eq_nil_iff]
        intro l' hl'
        refine hother l' fun heq => hfirst ?_
        exact heq ▸ List.mem_map_of_mem hl'
      rw [hsame l rfl, hrest, List.append_nil]
    · have hne : first.2 ≠ l.2 := fun heq =>
        hfirst (heq ▸ List.mem_map_of_mem hl)
      rw [hother first hne, List.nil_append, ih hnodup hl]

/-! ## The kinds of the tokens -/

/-- No piece of a line stands for the end of the line or of the input. -/
theorem kind_of_token? {l : Lexeme} {t : Token}
    (h : l.token? number = some t) :
    t.kind ≠ .newline ∧ t.kind ≠ .endOfInput := by
  cases l with
  | word text =>
    cases h
    dsimp only
    split <;> simp
  | quoted text => cases h; simp
  | mark c => cases h; simp
  | noise c => cases h

/-- The tokens are those of whole lines: the input does not end in them, and
    the last one ends a line. -/
structure WholeLines (ts : List Token) : Prop where
  noEnd : ∀ t ∈ ts, t.kind ≠ .endOfInput
  newline : ∀ t ∈ ts.getLast?, t.kind = .newline

theorem WholeLines.append (h : WholeLines ts) (h' : WholeLines ts') :
    WholeLines (ts ++ ts') where
  noEnd := by
    intro t ht
    rcases List.mem_append.mp ht with ht | ht
    · exact h.noEnd t ht
    · exact h'.noEnd t ht
  newline := by
    intro t ht
    rw [List.getLast?_append] at ht
    cases hlast : ts'.getLast? with
    | none =>
      rw [hlast, Option.none_or] at ht
      exact h.newline t ht
    | some last =>
      rw [hlast, Option.some_or] at ht
      exact h'.newline t (hlast ▸ ht)

theorem wholeLines_of_ofLine (h : ofLine line number = .ok ts) :
    WholeLines ts := by
  unfold ofLine at h
  split at h
  · cases h
    exact ⟨by simp, by simp⟩
  · split at h <;> cases h
    rename_i lexemes _
    constructor
    · intro t ht
      rcases List.mem_append.mp ht with ht | ht
      · obtain ⟨l, -, hl⟩ := List.mem_filterMap.mp ht
        exact (kind_of_token? hl).2
      · rw [List.mem_singleton.mp ht]
        simp [Token.newline]
    · intro t ht
      rw [List.getLast?_concat] at ht
      cases ht
      rfl

theorem wholeLines_of_ofNumbered (h : ofNumbered ls = .ok ts) :
    WholeLines ts := by
  induction ls generalizing ts with
  | nil =>
    cases h
    exact ⟨by simp, by simp⟩
  | cons l ls ih =>
    obtain ⟨first, rest, hfirst, hrest, rfl⟩ := ofNumbered_cons_eq_ok h
    exact (wholeLines_of_ofLine hfirst).append (ih hrest)

/-- The tokens of a script are those of whole lines and the end of the
    input. -/
theorem exists_wholeLines_of_ofScript (h : ofScript script = .ok ts) :
    ∃ body, ofNumbered (Text.numberedLines script.toList) = .ok body ∧
      WholeLines body ∧
      ts = body ++ [endOfInput
        (Text.lineNumber (Text.lines script.toList).length)] := by
  rw [ofScript_eq] at h
  cases hbody : ofNumbered (Text.numberedLines script.toList) with
  | error fault =>
    rw [hbody] at h
    cases h
  | ok body =>
    rw [hbody] at h
    cases h
    exact ⟨body, rfl, wholeLines_of_ofNumbered hbody, rfl⟩

end Token

/-! ## The program of a script -/

namespace Program

variable {limit : Nat} {script : String} {ts : List Token} {p : Program}
  {e : ReadFault}

theorem ofScript_of_tokens (h : Token.ofScript script = .ok ts) :
    ofScript limit script = (ofTokens limit ts).mapError .read := by
  rw [ofScript, h]

/-- A script that was not rejected in scanning has tokens. -/
theorem exists_tokens_of_ofScript {result : Except Rejection Program}
    (h : ofScript limit script = result)
    (hscan : ∀ f, result ≠ .error (.scan f)) :
    ∃ ts, Token.ofScript script = .ok ts ∧
      (ofTokens limit ts).mapError .read = result := by
  cases hts : Token.ofScript script with
  | error fault =>
    rw [ofScript, hts] at h
    exact absurd h.symm (hscan fault)
  | ok ts => exact ⟨ts, rfl, ofScript_of_tokens hts ▸ h⟩

theorem ofScript_eq_ok (h : ofScript limit script = .ok p) :
    ∃ ts, Token.ofScript script = .ok ts ∧ ofTokens limit ts = .ok p := by
  obtain ⟨ts, hts, hresult⟩ := exists_tokens_of_ofScript h (by simp)
  refine ⟨ts, hts, ?_⟩
  cases hread : ofTokens limit ts with
  | error e =>
    rw [hread] at hresult
    cases hresult
  | ok p' =>
    rw [hread] at hresult
    cases hresult
    rfl

theorem ofScript_eq_read (h : ofScript limit script = .error (.read e)) :
    ∃ ts, Token.ofScript script = .ok ts ∧ ofTokens limit ts = .error e := by
  obtain ⟨ts, hts, hresult⟩ := exists_tokens_of_ofScript h (by simp)
  refine ⟨ts, hts, ?_⟩
  cases hread : ofTokens limit ts with
  | error e' =>
    rw [hread] at hresult
    cases hresult
    rfl
  | ok p =>
    rw [hread] at hresult
    cases hresult

theorem ofScript_eq_scan {f : ScanFault}
    (h : ofScript limit script = .error (.scan f)) :
    Token.ofScript script = .error f := by
  cases hts : Token.ofScript script with
  | error f' =>
    rw [ofScript, hts] at h
    cases h
    rfl
  | ok ts =>
    rw [ofScript_of_tokens hts] at h
    cases hread : ofTokens limit ts with
    | error e =>
      rw [hread] at h
      cases h
    | ok p =>
      rw [hread] at h
      cases h

end Program

/-! ## The C++ text of a script -/

section Compile

variable {limit : Nat} {script text : String} {tokens : List Token}

theorem compile_of_scan_error {fault : ScanFault}
    (hscan : Token.ofScript script = .error fault) :
    compile limit script = .error (.scan fault) := by
  unfold compile Program.ofScript
  rw [hscan]
  rfl

theorem compile_of_read_error {fault : ReadFault}
    (hscan : Token.ofScript script = .ok tokens)
    (hread : Program.ofTokens limit tokens = .error fault) :
    compile limit script = .error (.read fault) := by
  rw [compile, Program.ofScript_of_tokens hscan, hread]
  rfl

theorem compile_of_read_ok {program : Program}
    (hscan : Token.ofScript script = .ok tokens)
    (hread : Program.ofTokens limit tokens = .ok program) :
    compile limit script = .ok program.text := by
  rw [compile, Program.ofScript_of_tokens hscan, hread]
  rfl

theorem compile_eq_ok (h : compile limit script = .ok text) :
    ∃ program, Program.ofScript limit script = .ok program ∧
      text = program.text := by
  unfold compile at h
  cases hread : Program.ofScript limit script with
  | error rejection =>
    rw [hread] at h
    cases h
  | ok program =>
    rw [hread] at h
    cases h
    exact ⟨program, rfl, rfl⟩

theorem ofScript_of_compile_error {e : Rejection}
    (h : compile limit script = .error e) :
    Program.ofScript limit script = .error e := by
  unfold compile at h
  cases hread : Program.ofScript limit script with
  | error rejection =>
    rw [hread] at h
    cases h
    rfl
  | ok program =>
    rw [hread] at h
    cases h

end Compile

end SayScript
