import Mathlib.Data.List.Infix
import SayScript.Proofs.Pieces

/-! # Normalized scripts

    The tokens of a script can be written down again as a script: those of
    each line on a line of their own, with one blank between any two.  A line
    that says something but has no tokens is written as a semicolon, and all
    other lines are empty.  Scanning the result gives the same tokens with
    the same line numbers.

    The proof is by lines.  The tokens with the number of a line are those
    found in it, and these are spelled by pieces that were cut from it.  So
    they hold no line feed, and a blank after each of them keeps them
    apart. -/

namespace SayScript

namespace Text

/-- A line has no line feed in it. -/
theorem newline_not_mem_of_mem_lines {text line : List Char}
    (h : line ∈ lines text) : '\n' ∉ line := by
  induction hlength : text.length using Nat.strongRecOn generalizing text with
  | ind n ih =>
    by_cases hmem : '\n' ∈ text
    · -- the first line ends at the first line feed
      obtain ⟨first, rest, rfl, hfirst⟩ := List.eq_append_cons_of_mem hmem
      rw [lines_append _ hfirst] at h
      rcases List.mem_cons.mp h with rfl | h
      · unfold dropReturn
        split
        · exact fun hmem => hfirst (List.mem_of_mem_dropLast hmem)
        · exact hfirst
      · refine ih rest.length ?_ h rfl
        simp only [← hlength, List.length_append, List.length_cons]
        omega
    · rw [lines_of_newline_not_mem hmem] at h
      obtain rfl := List.mem_singleton.mp (List.mem_of_mem_filter h)
      exact hmem

theorem mem_of_mem_trim {line : List Char} {c : Char} (h : c ∈ trim line) :
    c ∈ line := by
  have hstart := (trim_prefix_trimStart line).subset h
  exact (List.dropWhile_suffix isBlank).subset hstart

end Text

/-! ## Writing tokens -/

namespace Token

/-- How the token is written in a script: a literal stands in quotes. -/
def source (t : Token) : String :=
  if t.kind = .literal then "\"" ++ t.text ++ "\"" else t.text

/-- The tokens of a line without the newline that ends it. -/
def words (found : List Token) : List Token :=
  found.filter fun t => t.kind ≠ .newline

/-- How the tokens found in a line are written. -/
def lineSource (found : List Token) : String :=
  if found.isEmpty then ""
  else if (words found).isEmpty then ";"
  else " ".intercalate ((words found).map source)

/-- The tokens of a script of `n` lines, the last of which is the end of the
    input, written as a script. -/
def normalized (n : Nat) (ts : List Token) : String :=
  Text.unlines ((List.range' 1 n).map fun i =>
    lineSource (ts.dropLast.filter fun t => t.line = i))

variable {n : Nat} {t : Token} {ts : List Token} {cs : List Char}

/-- A token is written like the piece it was made from. -/
theorem toList_source {l : Lexeme} (h : l.token? n = some t) :
    t.source.toList = l.spelling := by
  cases l with
  | word text =>
    have hkind : t.kind ≠ .literal := by
      cases h
      dsimp only
      split <;> simp
    cases h
    simp [source, hkind, Lexeme.spelling]
  | quoted text =>
    cases h
    simp [source, Lexeme.spelling]
  | mark c =>
    cases h
    simp [source, Lexeme.spelling]
  | noise c => cases h

/-- The token was made on line `n` from a piece of a line. -/
def IsWritten (n : Nat) (t : Token) : Prop :=
  ∃ l : Lexeme, l.token? n = some t ∧ l.IsProper ∧ '\n' ∉ l.spelling

/-- A token that is written starts with no blank and no comment sign. -/
theorem IsWritten.exists_head (h : IsWritten n t) :
    ∃ c ∈ t.source.toList.head?, Text.isBlank c = false ∧ c ≠ '#' := by
  obtain ⟨l, ht, hl, -⟩ := h
  rw [toList_source ht]
  cases l with
  | word text =>
    cases text with
    | nil => cases hl
    | cons c text =>
      have hstart : Lexeme.isWordStart c := (Bool.and_eq_true_iff.mp hl).1
      exact ⟨c, rfl, Lexeme.solid_of_isWordStart hstart⟩
  | quoted text => exact ⟨'"', rfl, by decide⟩
  | mark c =>
    refine ⟨c, rfl, Lexeme.isBlank_of_isMark hl, ?_⟩
    rintro rfl
    revert hl
    simp [Lexeme.IsProper, Lexeme.isMark]
  | noise c => cases ht

theorem IsWritten.spells (h : IsWritten n t) (hcs : Lexeme.EndsWord cs)
    (hspells : Spells n cs ts) :
    Spells n (t.source.toList ++ cs) (t :: ts) := by
  obtain ⟨l, ht, hl, hline⟩ := h
  rw [toList_source ht]
  exact hspells.piece hl ht hline fun _ _ => hcs

theorem words_append_newline (h : ∀ t ∈ ts, IsWritten n t) :
    words (ts ++ [newline n]) = ts := by
  have hts : ts.filter (fun t => t.kind ≠ .newline) = ts := by
    refine List.filter_eq_self.mpr fun t ht => ?_
    obtain ⟨l, htoken, -⟩ := h t ht
    simpa using (kind_of_token? htoken).1
  rw [words, List.filter_append, hts]
  simp [newline]

/-- Tokens are written with one blank before each. -/
theorem spells_flatMap (h : ∀ t ∈ ts, IsWritten n t) :
    Spells n (ts.flatMap fun t => ' ' :: t.source.toList) ts ∧
      Lexeme.EndsWord (ts.flatMap fun t => ' ' :: t.source.toList) := by
  induction ts with
  | nil => exact ⟨.nil n, Lexeme.endsWord_nil⟩
  | cons t ts ih =>
    rw [List.forall_mem_cons] at h
    obtain ⟨hspells, hends⟩ := ih h.2
    have hword := h.1.spells hends hspells
    have hne : t.source.toList ++ (ts.flatMap fun t => ' ' :: t.source.toList) ≠ [] := by
      obtain ⟨c, hc, -⟩ := h.1.exists_head
      intro hnil
      rw [(List.append_eq_nil_iff.mp hnil).1] at hc
      cases hc
    exact ⟨hword.blank hne, Lexeme.endsWord_cons (by decide) _⟩

/-- Tokens are written with one blank between any two. -/
theorem spells_intercalate (h : ∀ u ∈ t :: ts, IsWritten n u) :
    Spells n (" ".intercalate ((t :: ts).map source)).toList (t :: ts) ∧
      ∃ c ∈ (" ".intercalate ((t :: ts).map source)).toList.head?,
        Text.isBlank c = false ∧ c ≠ '#' := by
  rw [List.forall_mem_cons] at h
  have htext : (" ".intercalate ((t :: ts).map source)).toList =
      t.source.toList ++ ts.flatMap fun u => ' ' :: u.source.toList := by
    rw [String.toList_intercalate, List.map_map, List.map_cons]
    exact (Text.intercalate_cons_eq _ _ _).trans
      (by rw [List.flatMap_map]; rfl)
  obtain ⟨hspells, hends⟩ := spells_flatMap h.2
  obtain ⟨c, hc, hsolid⟩ := h.1.exists_head
  rw [htext]
  refine ⟨h.1.spells hends hspells, c, ?_, hsolid⟩
  rw [List.head?_append, hc]
  rfl

/-- A semicolon is a piece that stands for no token. -/
theorem spells_semicolon (n : Nat) : Spells n [';'] [] where
  cut := ⟨[.noise ';'], .noise (by decide) (by decide) (by decide) .nil, rfl⟩
  solid := by
    intro c hc
    cases hc
    decide
  oneLine := by decide

/-! ## Scanning what was written -/

/-- The pieces of a line hold no line feed, as the line does not. -/
theorem isWritten_of_isSplitting (n : Nat) {line : List Char}
    {pieces : List Lexeme} (hline : '\n' ∉ line)
    (hpieces : Lexeme.IsSplitting (Text.trim line) pieces) :
    ∀ t ∈ pieces.filterMap (Lexeme.token? n), IsWritten n t := by
  intro t ht
  obtain ⟨l, hl, htoken⟩ := List.mem_filterMap.mp ht
  refine ⟨l, htoken, hpieces.proper l hl, fun hmem => hline ?_⟩
  apply Text.mem_of_mem_trim
  rw [← hpieces.whole]
  exact List.mem_flatMap.mpr ⟨l, hl, hmem⟩

theorem isWritten_of_ofLine {line : List Char} {found : List Token}
    (hline : '\n' ∉ line) (h : ofLine line n = .ok found) (ht : t ∈ found)
    (hkind : t.kind ≠ .newline) : IsWritten n t := by
  by_cases hcontent : Text.isContent (Text.trim line)
  · obtain ⟨pieces, hpieces, rfl⟩ := (ofLine_eq_ok_iff hcontent).mp h
    rcases List.mem_append.mp ht with ht | ht
    · exact isWritten_of_isSplitting n hline hpieces t ht
    · rw [List.mem_singleton.mp ht] at hkind
      exact absurd rfl hkind
  · rw [ofLine_of_not_isContent (by simpa using hcontent)] at h
    cases h
    cases ht

/-- No literal of a script has a line feed in it. -/
theorem newline_not_mem_of_literal {script : String}
    (h : ofScript script = .ok ts) (ht : t ∈ ts) (hkind : t.kind = .literal) :
    '\n' ∉ t.text.toList := by
  obtain ⟨body, hbody, -, rfl⟩ := exists_wholeLines_of_ofScript h
  have ht : t ∈ body := by
    rcases List.mem_append.mp ht with ht | ht
    · exact ht
    · rw [List.mem_singleton.mp ht] at hkind
      cases hkind
  obtain ⟨l, hl, found, hfound, ht⟩ := exists_ofLine_of_mem hbody ht
  have hline : '\n' ∉ l.1 :=
    Text.newline_not_mem_of_mem_lines
      (Text.mem_lines_of_mem_numberedLines hl)
  obtain ⟨piece, htoken, -, hpiece⟩ :=
    isWritten_of_ofLine hline hfound ht (by rw [hkind]; decide)
  -- what is written for a literal is its text in quotes
  rw [← toList_source htoken, source, if_pos hkind] at hpiece
  intro hmem
  exact hpiece (by simp [hmem])

/-- The tokens found in a line are found again in what is written for them,
    which is one line without a blank at its end. -/
theorem ofLine_lineSource {line : List Char} {found : List Token}
    (hline : '\n' ∉ line) (h : ofLine line n = .ok found) :
    '\n' ∉ (lineSource found).toList ∧
      (∀ c ∈ (lineSource found).toList.getLast?, Text.isBlank c = false) ∧
      ofLine (lineSource found).toList n = .ok found := by
  by_cases hcontent : Text.isContent (Text.trim line)
  · obtain ⟨pieces, hpieces, rfl⟩ := (ofLine_eq_ok_iff hcontent).mp h
    have hwritten := isWritten_of_isSplitting n hline hpieces
    generalize pieces.filterMap (Lexeme.token? n) = ts at hwritten ⊢
    -- the line is spelled by the tokens, or by a semicolon if there is none
    obtain ⟨hspells, hfirst⟩ : Spells n (lineSource (ts ++ [newline n])).toList ts ∧
        ∃ c ∈ (lineSource (ts ++ [newline n])).toList.head?,
          Text.isBlank c = false ∧ c ≠ '#' := by
      rw [lineSource, words_append_newline hwritten, if_neg (by simp)]
      cases ts with
      | nil => exact ⟨spells_semicolon n, ';', rfl, by decide⟩
      | cons t ts => exact spells_intercalate hwritten
    exact ⟨hspells.oneLine, hspells.solid, ofLine_of_spells hspells hfirst 0⟩
  · rw [ofLine_of_not_isContent (by simpa using hcontent)] at h
    cases h
    exact ⟨by simp [lineSource], by simp [lineSource], rfl⟩

/-- With fewer than 2^32 lines, each line of a normalized script is written
    for one line of the script. -/
theorem normalized_eq {text : List Char}
    (hlines : (Text.lines text).length < UInt32.size) (e : Token) :
    normalized (Text.lines text).length
        ((Text.numberedLines text).flatMap lineTokens ++ [e]) =
      Text.unlines ((Text.numberedLines text).map fun l =>
        lineSource (lineTokens l)) := by
  have hplaces : List.range' 1 (Text.lines text).length =
      (Text.placedLines text).map Prod.snd :=
    (List.zipIdx_map_snd 1 (Text.lines text)).symm
  rw [Text.numberedLines_of_lt hlines, normalized, List.dropLast_concat,
    hplaces, List.map_map]
  congr 1
  refine List.map_congr_left fun l hl => ?_
  rw [Function.comp_apply,
    filter_line_flatMap (Text.nodup_placedLines text) hl]

/-- Other texts for the lines of a script have the numbers of the lines. -/
theorem numbered_map_numberedLines (text : List Char)
    (f : List Char × Nat → List Char) :
    Text.numbered ((Text.numberedLines text).map f) =
      (Text.numberedLines text).map fun l => (f l, l.2) := by
  refine List.ext_getElem (by simp [Text.numbered]) ?_
  intro i h h'
  simp [Text.numbered, Text.numberedLines]

/-- What is written for the lines of a script has their tokens. -/
theorem ofNumbered_lineSource {ls : List (List Char × Nat)}
    (h : ∀ l ∈ ls, ofLine (lineSource (lineTokens l)).toList l.2 =
      .ok (lineTokens l)) :
    ofNumbered (ls.map fun l => ((lineSource (lineTokens l)).toList, l.2)) =
      .ok (ls.flatMap lineTokens) := by
  have hsame : ∀ l ∈ ls,
      lineTokens ((lineSource (lineTokens l)).toList, l.2) = lineTokens l :=
    fun l hl => lineTokens_of_ofLine (h l hl)
  rw [ofNumbered_eq_ok_iff]
  constructor
  · intro l' hl'
    obtain ⟨l, hl, rfl⟩ := List.mem_map.mp hl'
    rw [hsame l hl]
    exact h l hl
  · rw [List.flatMap_map]
    exact (List.flatMap_congr hsame).symm

/-- **Normalizing keeps the tokens.**  The tokens of a script of fewer than
    2^32 lines, written line by line with one blank between any two, are
    scanned as the same tokens on the same lines. -/
theorem ofScript_normalized {script : String}
    (hlines : (Text.lines script.toList).length < UInt32.size)
    (h : ofScript script = .ok ts) :
    ofScript (normalized (Text.lines script.toList).length ts) = .ok ts := by
  obtain ⟨body, hbody, -, rfl⟩ := exists_wholeLines_of_ofScript h
  obtain ⟨hall, rfl⟩ := ofNumbered_eq_ok_iff.mp hbody
  rw [normalized_eq hlines]
  -- what is written for a line is scanned like the line
  have hscan : ∀ l ∈ Text.numberedLines script.toList, _ := fun l hl =>
    ofLine_lineSource (Text.newline_not_mem_of_mem_lines
      (Text.mem_lines_of_mem_numberedLines hl)) (hall l hl)
  have hwritten : Text.lines (Text.unlines
      ((Text.numberedLines script.toList).map fun l =>
        lineSource (lineTokens l))).toList =
      (Text.numberedLines script.toList).map fun l =>
        (lineSource (lineTokens l)).toList := by
    rw [Text.lines_unlines
      (List.forall_mem_map.mpr fun l hl => (hscan l hl).1)
      (List.forall_mem_map.mpr fun l hl => (hscan l hl).2.1), List.map_map]
    rfl
  have hlength : (Text.numberedLines script.toList).length =
      (Text.lines script.toList).length := by
    rw [← Text.map_fst_numberedLines, List.length_map]
  rw [ofScript, hwritten, ofLines_eq, numbered_map_numberedLines,
    ofNumbered_lineSource fun l hl => (hscan l hl).2.2, List.length_map,
    hlength]
  rfl

/-- A literal with blanks, a comment sign and a carriage return in it, words
    that run into marks and literals, a comment, an empty line, and a line
    of which every character is dropped. -/
theorem ofScript_normalized_literals :
    let script := "\t say\"# x \r\",if2é(_a)# 9b\r\n\n# note\n\u00a0;9 \n"
    let ts : List Token := [
      ⟨.keyword .say, "say", 1⟩, ⟨.literal, "# x \r", 1⟩, ⟨.symbol, ",", 1⟩,
      ⟨.identifier, "if2", 1⟩, ⟨.symbol, "(", 1⟩, ⟨.identifier, "_a", 1⟩,
      ⟨.symbol, ")", 1⟩, ⟨.identifier, "b", 1⟩, .newline 1, .newline 4,
      .endOfInput 4]
    let text := "say \"# x \r\" , if2 ( _a ) b\n\n\n;\n"
    ofScript script = .ok ts ∧ normalized 4 ts = text ∧
      ofScript text = .ok ts := by
  intro script ts text
  have hscript : ofScript script = .ok ts := by decide +kernel
  have htext : normalized 4 ts = text := by decide +kernel
  have hlength : (Text.lines script.toList).length = 4 := by decide +kernel
  have hlines : (Text.lines script.toList).length < UInt32.size := by
    rw [hlength]
    decide
  have hsame := ofScript_normalized hlines hscript
  rw [hlength, htext] at hsame
  exact ⟨hscript, htext, hsame⟩

/-- Tokens on line 0 are written on no line. -/
theorem normalized_of_line_eq_zero (h : ∀ t ∈ ts.dropLast, t.line = 0)
    (n : Nat) : normalized n ts = Text.newlines n := by
  have hempty : ∀ i ∈ List.range' 1 n,
      lineSource (ts.dropLast.filter fun t => t.line = i) = "" := by
    intro i hi
    have hpos := (List.mem_range'_1.mp hi).1
    have hnone : ts.dropLast.filter (fun t => t.line = i) = [] := by
      refine List.filter_eq_nil_iff.mpr fun t ht => ?_
      rw [h t ht, decide_eq_true_iff]
      omega
    rw [hnone]
    rfl
  rw [normalized, List.map_congr_left hempty, List.map_const',
    List.length_range', ← String.toList_inj, Text.toList_unlines,
    Text.newlines, String.toList_ofList]
  simp [List.flatMap_replicate]

/-- A name in place 2^32, after lines that are all empty, is on line 0 and is
    lost when the script is normalized. -/
theorem name_lost_in_normalized :
    let script := Text.newlines (UInt32.size - 1) ++ "a"
    let ts : List Token := [.ofName 0 "a", .newline 0, .endOfInput 0]
    let text := normalized (Text.lines script.toList).length ts
    ofScript script = .ok ts ∧ text = Text.newlines UInt32.size ∧
      ofScript text = .ok [.endOfInput 0] := by
  intro script ts text
  have hname : ofScript "a" = .ok
      [.ofName 1 "a", .newline 1, .endOfInput 1] := by decide +kernel
  have hlength : (Text.lines script.toList).length = UInt32.size := by
    rw [Text.lines_toList_append (Text.newlines_eq_or_getLast? _),
      List.length_append, Text.length_lines_newlines]
    rfl
  have htext : text = Text.newlines UInt32.size := by
    rw [← hlength]
    exact normalized_of_line_eq_zero (by decide) _
  refine ⟨?_, htext, ?_⟩
  · rw [ofScript_newlines_append, hname]
    rfl
  · rw [htext]
    exact ofScript_newlines _

end Token

end SayScript
