import Mathlib.Algebra.Ring.Parity
import Mathlib.Data.List.TakeWhile
import SayScript.Proofs.Pieces

/-! # Quotes

    A line is scanned without counting its quotes: each quote is answered by
    the next one.  Still it is their number that decides.  A line cannot be
    cut if and only if the number is odd, and otherwise each quoted text has
    two of them.

    A script therefore has no tokens if and only if some line that says
    something has an odd number of quotes, and the first such line is the one
    that is reported. -/

namespace SayScript

/-! ## Quotes of a line -/

namespace Text

/-- Does a line say something and have an odd number of quotes? -/
def HasOddQuotes (line : List Char) : Prop :=
  isContent (trim line) ∧ Odd (line.count '"')

theorem count_quote_dropWhile {p : Char → Bool} (hp : p '"' = false)
    (cs : List Char) : (cs.dropWhile p).count '"' = cs.count '"' := by
  induction cs with
  | nil => rfl
  | cons c cs ih =>
    by_cases hc : p c = true
    · have hquote : c ≠ '"' := by
        rintro rfl
        rw [hp] at hc
        cases hc
      rw [List.dropWhile_cons_of_pos hc, ih, List.count_cons_of_ne hquote]
    · rw [List.dropWhile_cons_of_neg hc]

/-- Trimming takes away no quote. -/
theorem count_quote_trim (line : List Char) :
    (trim line).count '"' = line.count '"' := by
  have hblank : isBlank '"' = false := by decide
  rw [trim, trimEnd, List.count_reverse, count_quote_dropWhile hblank,
    List.count_reverse, trimStart, count_quote_dropWhile hblank]

end Text

namespace Lexeme

variable {cs : List Char} {ls : List Lexeme}

/-- Is the piece a quoted text? -/
def isQuoted : Lexeme → Bool
  | quoted _ => true
  | word _ | mark _ | noise _ => false

theorem count_quote_of_isWordPart {text : List Char}
    (h : ∀ c ∈ text, isWordPart c) : text.count '"' = 0 := by
  rw [List.count_eq_zero]
  intro hmem
  have := h _ hmem
  rw [isWordPart_quote] at this
  cases this

/-- Only a quoted text has quotes, one at each end. -/
theorem count_quote_spelling {l : Lexeme} (h : l.IsProper) :
    l.spelling.count '"' = if l.isQuoted then 2 else 0 := by
  cases l with
  | word text => exact count_quote_of_isWordPart (isWordPart_of_isWord h)
  | quoted text =>
    have htext : text.count '"' = 0 := List.count_eq_zero.mpr h
    simp [spelling, isQuoted, htext]
  | mark c => simp [spelling, isQuoted, ne_quote_of_isMark h]
  | noise c => simp [spelling, isQuoted, h.1]

theorem count_quote_flatMap (h : ∀ l ∈ ls, l.IsProper) :
    (ls.flatMap spelling).count '"' = 2 * ls.countP isQuoted := by
  induction ls with
  | nil => rfl
  | cons l ls ih =>
    rw [List.forall_mem_cons] at h
    rw [List.flatMap_cons, List.count_append, count_quote_spelling h.1,
      ih h.2, List.countP_cons]
    split <;> omega

/-- Each quoted text stands for a literal, and no other piece does. -/
theorem Yields.countP_literal {n : Nat} {ts : List Token}
    (h : Yields n ls ts) :
    ts.countP (fun t => t.kind = .literal) = ls.countP isQuoted := by
  induction h with
  | nil => rfl
  | keyword k _ ih => simp [Token.ofKeyword, isQuoted, ih]
  | name _ _ ih => simp [Token.ofName, isQuoted, ih]
  | literal text _ ih => simp [Token.ofText, List.countP_cons, isQuoted, ih]
  | symbol c _ ih => simp [Token.ofMark, isQuoted, ih]
  | dropped c _ ih => simp [isQuoted, ih]

/-- A line cannot be cut if and only if the number of its quotes is odd. -/
theorem split?_eq_none_iff (cs : List Char) :
    split? cs = none ↔ Odd (cs.count '"') := by
  fun_induction split? cs with
  | case1 => simp
  | case2 cs hdrop =>
    -- no quote answers the first one
    have hnone : cs.count '"' = 0 := by
      rw [List.count_eq_zero]
      intro hmem
      have := List.dropWhile_eq_nil_iff.mp hdrop _ hmem
      simp at this
    simp [hnone]
  | case3 cs d rest hdrop ih =>
    have htext : (cs.takeWhile (· ≠ '"')).count '"' = 0 :=
      List.count_eq_zero.mpr (quote_not_mem_takeWhile cs)
    have hcount : cs.count '"' = rest.count '"' + 1 := by
      conv_lhs => rw [eq_append_of_dropWhile hdrop]
      rw [List.count_append, htext, List.count_cons_self, Nat.zero_add]
    rw [Option.map_eq_none_iff, ih, List.count_cons_self, hcount]
    simp [Nat.odd_add_one]
  | case4 c cs hquote hstart ih =>
    rw [Option.map_eq_none_iff, ih, List.count_cons_of_ne hquote,
      Text.count_quote_dropWhile isWordPart_quote]
  | case5 c cs hquote hstart hmark ih =>
    rw [Option.map_eq_none_iff, ih, List.count_cons_of_ne hquote]
  | case6 c cs hquote hstart hmark ih =>
    rw [Option.map_eq_none_iff, ih, List.count_cons_of_ne hquote]

end Lexeme

namespace Token

variable {line : List Char} {n : Nat} {f : ScanFault} {ts : List Token}

theorem ofLine_eq_error_iff :
    ofLine line n = .error f ↔ f = ⟨n⟩ ∧ Text.HasOddQuotes line := by
  rw [Text.HasOddQuotes, ← Text.count_quote_trim, ← Lexeme.split?_eq_none_iff]
  cases hcontent : Text.isContent (Text.trim line) with
  | false => simp [ofLine_of_not_isContent hcontent]
  | true =>
    simp only [ofLine, Text.content?_eq, if_pos hcontent]
    cases Lexeme.split? (Text.trim line) with
    | none => simp [eq_comm]
    | some pieces => simp

theorem countP_literal_of_ofLine (hcontent : Text.isContent (Text.trim line))
    (h : ofLine line n = .ok ts) :
    2 * ts.countP (fun t => t.kind = .literal) = line.count '"' := by
  obtain ⟨pieces, hpieces, rfl⟩ := (ofLine_eq_ok_iff hcontent).mp h
  have hyields := Lexeme.yields_filterMap n pieces
  rw [← Text.count_quote_trim, ← hpieces.whole,
    Lexeme.count_quote_flatMap hpieces.proper, List.countP_append,
    hyields.countP_literal]
  simp [newline]

/-- Of the lines that cannot be scanned the first one is reported. -/
theorem exists_line_of_ofScript_error {script : String}
    (h : ofScript script = .error f) :
    ∃ l ∈ Text.placedLines script.toList, Text.HasOddQuotes l.1 ∧
      f.line = Text.lineNumber l.2 ∧
      ∀ l' ∈ Text.placedLines script.toList, Text.HasOddQuotes l'.1 →
        l.2 ≤ l'.2 := by
  have hpairwise := Text.pairwise_placedLines script.toList
  rw [ofScript_eq_error_iff, Text.numberedLines_eq, ofNumbered_renumber] at h
  cases hscan : ofNumbered (Text.placedLines script.toList) with
  | ok ts =>
    rw [hscan] at h
    cases h
  | error f' =>
    rw [hscan] at h
    cases h
    obtain ⟨before, line, after, hlines, hbefore, hline⟩ :=
      ofNumbered_eq_error hscan
    rw [hlines] at hpairwise ⊢
    refine ⟨(line, f'.line), by simp, (ofLine_eq_error_iff.mp hline).2, rfl, ?_⟩
    intro l hl hodd
    rcases List.mem_append.mp hl with hl | hl
    · -- the lines before it were scanned
      obtain ⟨ts, hts⟩ := hbefore l hl
      rw [ofLine_eq_error_iff.mpr ⟨rfl, hodd⟩] at hts
      cases hts
    · rcases List.mem_cons.mp hl with rfl | hl
      · exact Nat.le_refl _
      · have hafter := (List.pairwise_cons.mp
          (List.pairwise_append.mp hpairwise).2.1).1
        exact Nat.le_of_lt (hafter l hl)

/-- With fewer than 2^32 lines, the literals that have the number of a line
    are those found in it. -/
theorem countP_literal_flatMap {script : String}
    (hlines : (Text.lines script.toList).length < UInt32.size)
    {l : List Char × Nat} (hl : l ∈ Text.numberedLines script.toList)
    (number : Nat) :
    ((Text.numberedLines script.toList).flatMap lineTokens ++
        [endOfInput number]).countP
          (fun t => t.kind = .literal ∧ t.line = l.2) =
      (lineTokens l).countP (fun t => t.kind = .literal) := by
  have hcount : ∀ ts : List Token,
      ts.countP (fun t => t.kind = .literal ∧ t.line = l.2) =
        (ts.filter fun t => t.line = l.2).countP
          fun t => t.kind = .literal := by
    intro ts
    simp [List.countP_filter]
  rw [Text.numberedLines_of_lt hlines] at hl ⊢
  rw [List.countP_append, hcount,
    filter_line_flatMap (Text.nodup_placedLines _) hl]
  simp [endOfInput]

/-- **An odd number of quotes is the one fault of scanning.**  A script has
    no tokens if and only if some line that says something has an odd number
    of quotes, and the number of the first such line is reported.  The tokens
    of a script are those of its lines, and among those of a line that says
    something there are half as many literals as the line has quotes; with
    fewer than 2^32 lines these are the literals that have its number. -/
theorem ofScript_quotes (script : String) :
    ((∃ f, ofScript script = .error f) ↔
      ∃ line ∈ Text.lines script.toList, Text.HasOddQuotes line) ∧
    (∀ f, ofScript script = .error f →
      ∃ l ∈ Text.placedLines script.toList, Text.HasOddQuotes l.1 ∧
        f.line = Text.lineNumber l.2 ∧
        ∀ l' ∈ Text.placedLines script.toList, Text.HasOddQuotes l'.1 →
          l.2 ≤ l'.2) ∧
    (∀ ts, ofScript script = .ok ts →
      ts = (Text.numberedLines script.toList).flatMap lineTokens ++
        [endOfInput (Text.lineNumber (Text.lines script.toList).length)] ∧
      ∀ l ∈ Text.numberedLines script.toList,
        Text.isContent (Text.trim l.1) →
        2 * (lineTokens l).countP (fun t => t.kind = .literal) =
          l.1.count '"' ∧
        ((Text.lines script.toList).length < UInt32.size →
          2 * ts.countP (fun t => t.kind = .literal ∧ t.line = l.2) =
            l.1.count '"')) := by
  refine ⟨⟨?_, ?_⟩, fun f h => exists_line_of_ofScript_error h, ?_⟩
  · rintro ⟨f, h⟩
    obtain ⟨l, hmem, hodd, -⟩ := exists_line_of_ofScript_error h
    exact ⟨l.1, List.fst_mem_of_mem_zipIdx hmem, hodd⟩
  · rintro ⟨line, hline, hodd⟩
    cases hscan : ofScript script with
    | error f => exact ⟨f, rfl⟩
    | ok ts =>
      -- all lines were scanned, this one among them
      obtain ⟨body, hbody, -⟩ := exists_wholeLines_of_ofScript hscan
      rw [← Text.map_fst_numberedLines] at hline
      obtain ⟨l, hl, rfl⟩ := List.mem_map.mp hline
      have hfound := (ofNumbered_eq_ok_iff.mp hbody).1 l hl
      rw [ofLine_eq_error_iff.mpr ⟨rfl, hodd⟩] at hfound
      cases hfound
  · intro ts h
    obtain ⟨body, hbody, -, rfl⟩ := exists_wholeLines_of_ofScript h
    obtain ⟨hall, rfl⟩ := ofNumbered_eq_ok_iff.mp hbody
    refine ⟨rfl, fun l hl hcontent => ?_⟩
    have hcount := countP_literal_of_ofLine hcontent (hall l hl)
    refine ⟨hcount, fun hlines => ?_⟩
    rw [countP_literal_flatMap hlines hl]
    exact hcount

/-- A quote in place 2^32 + 1, after lines that are all empty, is reported on
    line 1. -/
theorem quote_reported_on_line_one :
    let script := Text.newlines UInt32.size ++ "\""
    Text.lines script.toList = List.replicate UInt32.size [] ++ [['"']] ∧
      ofScript script = .error ⟨1⟩ := by
  intro script
  constructor
  · rw [Text.lines_toList_append (Text.newlines_eq_or_getLast? _),
      Text.lines_newlines]
    rfl
  · have hquote : ofScript "\"" = .error ⟨1⟩ := by decide +kernel
    rw [ofScript_newlines_append, hquote]
    rfl

end Token

end SayScript
