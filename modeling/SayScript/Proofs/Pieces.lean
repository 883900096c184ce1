import Mathlib.Data.List.Basic
import SayScript.Proofs.LongScripts
import SayScript.Proofs.Spacing

/-! # The pieces of a script

    What scanning gives, said without saying how it is found.  A line that
    says something is split into pieces: words, quoted texts, marks and
    dropped characters.  `Lexeme.IsSplitting` lists what a right splitting
    has to satisfy.  The pieces make up the line, each is one of its class,
    and no word could be longer.  There is only one such splitting.

    `Lexeme.Yields` says which tokens the pieces stand for.  The tokens of a
    script are those of its lines, one line after the other, each line ended
    by a newline, and the end of the input. -/

namespace SayScript

/-! ## Keywords and their spellings -/

namespace Keyword

theorem ofSpelling?_spelling (k : Keyword) :
    ofSpelling? k.spelling = some k := by
  cases k <;> rfl

theorem spelling_of_ofSpelling? {k : Keyword} {w : String}
    (h : ofSpelling? w = some k) : k.spelling = w := by
  simpa using List.find?_some h

theorem ofSpelling?_eq_none_iff {w : String} :
    ofSpelling? w = none ↔ ∀ k : Keyword, k.spelling ≠ w := by
  constructor
  · rintro h k rfl
    rw [ofSpelling?_spelling] at h
    cases h
  · intro h
    cases hk : ofSpelling? w with
    | none => rfl
    | some k => exact absurd (spelling_of_ofSpelling? hk) (h k)

end Keyword

namespace Lexeme

/-! ## Splittings of a line -/

/-- The pieces make up the text, each is one of its class, and no word could
    be longer. -/
structure IsSplitting (cs : List Char) (ls : List Lexeme) : Prop where
  whole : ls.flatMap spelling = cs
  proper : ∀ l ∈ ls, l.IsProper
  /-- What follows a word does not go on it. -/
  longest : ∀ text after, word text :: after <:+ ls →
    EndsWord (after.flatMap spelling)

variable {cs : List Char} {ls : List Lexeme} {n : Nat} {ts : List Token}

theorem IsCut.endsWord_of_suffix {text : List Char} {after : List Lexeme}
    (h : IsCut cs ls) (hword : .word text :: after <:+ ls) :
    EndsWord (after.flatMap spelling) := by
  induction h with
  | nil => simp at hword
  | word _ hrest hcut ih =>
    rcases List.suffix_cons_iff.mp hword with heq | hword
    · cases heq
      rwa [hcut.spelling_eq]
    · exact ih hword
  | quoted _ _ ih => exact ih (by simpa [List.suffix_cons_iff] using hword)
  | mark _ _ ih => exact ih (by simpa [List.suffix_cons_iff] using hword)
  | noise _ _ _ _ ih => exact ih (by simpa [List.suffix_cons_iff] using hword)

theorem IsCut.isSplitting (h : IsCut cs ls) : IsSplitting cs ls where
  whole := h.spelling_eq
  proper _ := h.isProper_of_mem
  longest _ _ := h.endsWord_of_suffix

theorem IsSplitting.isCut (h : IsSplitting cs ls) : IsCut cs ls := by
  obtain ⟨rfl, hproper, hlongest⟩ := h
  induction ls with
  | nil => exact .nil
  | cons l ls ih =>
    rw [List.forall_mem_cons] at hproper
    have hcut := ih hproper.2 fun text after hword =>
      hlongest text after (hword.trans (List.suffix_cons l ls))
    rw [List.flatMap_cons]
    refine hcut.cons hproper.1 ?_
    rintro text rfl
    exact hlongest text ls List.suffix_rfl

/-- Cutting a line finds its splitting, if it has one. -/
theorem isSplitting_iff : IsSplitting cs ls ↔ split? cs = some ls :=
  ⟨fun h => split?_of_isCut h.isCut, fun h => (isCut_of_split? h).isSplitting⟩

/-- The pieces of a line, none if it cannot be split. -/
def pieces (cs : List Char) : List Lexeme :=
  (split? cs).getD []

/-- A line has at most one splitting. -/
theorem IsSplitting.eq_pieces (h : IsSplitting cs ls) : ls = pieces cs := by
  rw [pieces, isSplitting_iff.mp h]
  rfl

/-! ## The tokens of the pieces -/

/-- The tokens that the pieces of line `n` stand for. -/
inductive Yields (n : Nat) : List Lexeme → List Token → Prop where
  | nil : Yields n [] []
  | keyword (k : Keyword) {ls ts} : Yields n ls ts →
      Yields n (word k.spelling.toList :: ls) (.ofKeyword n k :: ts)
  | name {w : String} {ls ts} : (∀ k : Keyword, k.spelling ≠ w) →
      Yields n ls ts → Yields n (word w.toList :: ls) (.ofName n w :: ts)
  | literal (text : String) {ls ts} : Yields n ls ts →
      Yields n (quoted text.toList :: ls) (.ofText n text :: ts)
  | symbol (c : Char) {ls ts} : Yields n ls ts →
      Yields n (mark c :: ls) (.ofMark n c :: ts)
  | dropped (c : Char) {ls ts} : Yields n ls ts → Yields n (noise c :: ls) ts

theorem token?_keyword (n : Nat) (k : Keyword) :
    token? n (word k.spelling.toList) = some (.ofKeyword n k) := by
  simp [token?, Keyword.ofSpelling?_spelling, Token.ofKeyword]

theorem token?_name (n : Nat) {w : String}
    (hw : ∀ k : Keyword, k.spelling ≠ w) :
    token? n (word w.toList) = some (.ofName n w) := by
  simp [token?, Keyword.ofSpelling?_eq_none_iff.mpr hw, Token.ofName]

theorem token?_literal (n : Nat) (text : String) :
    token? n (quoted text.toList) = some (.ofText n text) := by
  simp [token?, Token.ofText]

theorem Yields.filterMap_eq (h : Yields n ls ts) :
    ls.filterMap (token? n) = ts := by
  induction h with
  | nil => rfl
  | keyword k _ ih => rw [List.filterMap_cons_some (token?_keyword n k), ih]
  | name hw _ ih => rw [List.filterMap_cons_some (token?_name n hw), ih]
  | literal text _ ih =>
    rw [List.filterMap_cons_some (token?_literal n text), ih]
  | symbol c _ ih => exact congrArg (Token.ofMark n c :: ·) ih
  | dropped c _ ih => exact ih

theorem yields_filterMap (n : Nat) (ls : List Lexeme) :
    Yields n ls (ls.filterMap (token? n)) := by
  induction ls with
  | nil => exact .nil
  | cons l ls ih =>
    cases l with
    | word text =>
      obtain ⟨w, rfl⟩ : ∃ w : String, w.toList = text :=
        ⟨.ofList text, String.toList_ofList⟩
      by_cases hw : ∃ k : Keyword, k.spelling = w
      · obtain ⟨k, rfl⟩ := hw
        rw [List.filterMap_cons_some (token?_keyword n k)]
        exact .keyword k ih
      · rw [not_exists] at hw
        rw [List.filterMap_cons_some (token?_name n hw)]
        exact .name hw ih
    | quoted text =>
      obtain ⟨text, rfl⟩ : ∃ s : String, s.toList = text :=
        ⟨.ofList text, String.toList_ofList⟩
      rw [List.filterMap_cons_some (token?_literal n text)]
      exact .literal text ih
    | mark c => exact .symbol c ih
    | noise c => exact .dropped c ih

end Lexeme

/-! ## The tokens of a script -/

namespace Text

variable {text : List Char} {l : List Char × Nat}

theorem isContent_of_mem_numberedContents (h : l ∈ numberedContents text) :
    isContent l.1 ∧ trim l.1 = l.1 := by
  obtain ⟨hmap, hcontent⟩ := List.mem_filter.mp h
  obtain ⟨l', -, rfl⟩ := List.mem_map.mp hmap
  exact ⟨hcontent, trim_trim l'.1⟩

end Text

namespace Token

variable {line : List Char} {n : Nat} {ts : List Token}

/-- A line that says something has the tokens of its pieces, and a newline. -/
theorem ofLine_eq_ok_iff (h : Text.isContent (Text.trim line)) :
    ofLine line n = .ok ts ↔
      ∃ pieces, Lexeme.IsSplitting (Text.trim line) pieces ∧
        ts = pieces.filterMap (Lexeme.token? n) ++ [newline n] := by
  simp only [ofLine, Text.content?_eq, if_pos h, Lexeme.isSplitting_iff]
  cases Lexeme.split? (Text.trim line) with
  | none => simp
  | some pieces => simp [eq_comm]

/-- What the lines say is trimmed already. -/
theorem ofLine_eq_ok_iff_of_mem {text : List Char} {l : List Char × Nat}
    (hl : l ∈ Text.numberedContents text) :
    ofLine l.1 l.2 = .ok ts ↔ ∃ ps, Lexeme.IsSplitting l.1 ps ∧
      ts = ps.filterMap (Lexeme.token? l.2) ++ [newline l.2] := by
  obtain ⟨hcontent, htrim⟩ := Text.isContent_of_mem_numberedContents hl
  rw [← htrim] at hcontent
  rw [ofLine_eq_ok_iff hcontent, htrim]

theorem ofScript_eq_ok_iff {script : String} :
    ofScript script = .ok ts ↔ ∃ body,
      ofNumbered (Text.numberedContents script.toList) = .ok body ∧
        ts = body ++ [endOfInput
          (Text.lineNumber (Text.lines script.toList).length)] := by
  rw [ofScript_eq, ← ofNumbered_numberedContents]
  cases ofNumbered (Text.numberedContents script.toList) with
  | error f => simp [Except.map]
  | ok body => simp [Except.map, eq_comm]

/-- **Scanning is exact.**  A script has the given tokens if and only if each
    line that says something splits into pieces, in one way only, and the
    tokens are those of the pieces, line by line, with a newline after each
    line and the end of the input after the last.  All of them have the
    number for the place of their line, and the end of the input that for the
    number of lines. -/
theorem ofScript_eq_ok_iff_isSplitting (script : String) (ts : List Token) :
    ofScript script = .ok ts ↔
      ∃ (pieces : List Char → List Lexeme)
        (tokens : List Char × Nat → List Token),
        (∀ l ∈ Text.numberedContents script.toList,
          Lexeme.IsSplitting l.1 (pieces l.1) ∧
          (∀ ps, Lexeme.IsSplitting l.1 ps → ps = pieces l.1) ∧
          Lexeme.Yields l.2 (pieces l.1) (tokens l)) ∧
        ts = (Text.numberedContents script.toList).flatMap
            (fun l => tokens l ++ [newline l.2]) ++
          [endOfInput
            (Text.lineNumber (Text.lines script.toList).length)] := by
  rw [ofScript_eq_ok_iff]
  constructor
  · rintro ⟨body, hbody, rfl⟩
    obtain ⟨hall, rfl⟩ := ofNumbered_eq_ok_iff.mp hbody
    refine ⟨Lexeme.pieces,
      fun l => (Lexeme.pieces l.1).filterMap (Lexeme.token? l.2), ?_, ?_⟩
    · intro l hl
      obtain ⟨ps, hps, -⟩ := (ofLine_eq_ok_iff_of_mem hl).mp (hall l hl)
      obtain rfl := hps.eq_pieces
      exact ⟨hps, fun ps' hps' => hps'.eq_pieces,
        Lexeme.yields_filterMap l.2 _⟩
    · have htokens : ∀ l ∈ Text.numberedContents script.toList,
          lineTokens l = (Lexeme.pieces l.1).filterMap (Lexeme.token? l.2) ++
            [newline l.2] := by
        intro l hl
        obtain ⟨ps, hps, hts⟩ := (ofLine_eq_ok_iff_of_mem hl).mp (hall l hl)
        rw [hts, hps.eq_pieces]
      rw [List.flatMap_congr htokens]
  · rintro ⟨pieces, tokens, hall, rfl⟩
    have hline : ∀ l ∈ Text.numberedContents script.toList,
        ofLine l.1 l.2 = .ok (tokens l ++ [newline l.2]) := by
      intro l hl
      obtain ⟨hps, -, hyields⟩ := hall l hl
      rw [ofLine_eq_ok_iff_of_mem hl]
      exact ⟨pieces l.1, hps, by rw [hyields.filterMap_eq]⟩
    -- so these are the tokens that are found in each line
    have htokens : ∀ l ∈ Text.numberedContents script.toList,
        lineTokens l = tokens l ++ [newline l.2] :=
      fun l hl => lineTokens_of_ofLine (hline l hl)
    refine ⟨_, ofNumbered_eq_ok_iff.mpr ⟨?_, rfl⟩, ?_⟩
    · intro l hl
      rw [htokens l hl, hline l hl]
    · rw [List.flatMap_congr htokens]

/-- The end of the input does not always have the number of lines: 2^32 line
    feeds are as many lines, and the input ends on line 0. -/
theorem endOfInput_on_line_zero :
    let script := Text.newlines UInt32.size
    (Text.lines script.toList).length = UInt32.size ∧
      ofScript script = .ok [endOfInput 0] :=
  ⟨Text.length_lines_newlines _, ofScript_newlines _⟩

end Token

end SayScript
