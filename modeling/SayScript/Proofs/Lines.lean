import SayScript.Proofs.Cuts
import SayScript.Proofs.Numbering

/-! # Scripts made of lines

    How a text made of given lines is scanned.  A line may start with any
    number of blanks, which are trimmed, and says nothing about the lines
    around it but their numbers.  `Spells n cs ts` holds when the text `cs`,
    on line `n`, is cut into the tokens `ts`; it is put together from the
    right, piece by piece.  `Scans n ls ts` does the same for lines, the
    first of which has number `n`. -/

namespace SayScript

/-! ## Lines of a text -/

namespace Text

theorem toList_unlines (ls : List String) :
    (unlines ls).toList = ls.flatMap fun l => l.toList ++ ['\n'] := by
  have hfold : ∀ text : String,
      (ls.foldl (fun text line => text ++ line ++ "\n") text).toList =
        text.toList ++ ls.flatMap fun l => l.toList ++ ['\n'] := by
    induction ls with
    | nil => simp
    | cons l ls ih =>
      intro text
      rw [List.foldl_cons, ih]
      simp
  rw [unlines, hfold]
  rfl

/-- All parts but the first have the separator before them. -/
theorem intercalate_cons_eq (separator part : List Char)
    (parts : List (List Char)) :
    separator.intercalate (part :: parts) =
      part ++ parts.flatMap (separator ++ ·) := by
  induction parts generalizing part with
  | nil => simp
  | cons next parts ih =>
    rw [List.intercalate_cons_cons, ih, List.flatMap_cons]
    simp

/-- Whole lines in front are cut off one by one. -/
theorem splitOn_unlines_append {ls : List String} (rest : String)
    (hls : ∀ l ∈ ls, '\n' ∉ l.toList) :
    (unlines ls ++ rest).toList.splitOn '\n' =
      ls.map String.toList ++ rest.toList.splitOn '\n' := by
  rw [String.toList_append, toList_unlines]
  induction ls with
  | nil => rfl
  | cons l ls ih =>
    have hl : '\n' ∉ l.toList := hls l List.mem_cons_self
    have hrest := ih fun l' hmem => hls l' (List.mem_cons_of_mem l hmem)
    rw [List.flatMap_cons, List.append_assoc, List.append_assoc,
      List.singleton_append, List.splitOn_append_cons_self_of_not_mem hl, hrest]
    rfl

/-- The first line of a text ends at the first line feed. -/
theorem lines_append {line : List Char} (rest : List Char)
    (hline : '\n' ∉ line) :
    lines (line ++ '\n' :: rest) = dropReturn line :: lines rest := by
  unfold lines
  rw [List.splitOn_append_cons_self_of_not_mem hline]
  -- the text after the line feed has a last segment, if only an empty one
  obtain ⟨segment, segments, hrest⟩ :=
    List.exists_cons_of_ne_nil (List.splitOn_ne_nil '\n' rest)
  simp [hrest]

/-- Text without a line feed is one line, unless it is empty. -/
theorem lines_of_newline_not_mem {text : List Char} (h : '\n' ∉ text) :
    lines text = [text].filter fun segment => !segment.isEmpty := by
  have hsplit : text.splitOn '\n' = [text] := by
    rw [← List.splitOn_intercalate '\n' (by simpa using h)
      (List.cons_ne_nil text []), List.intercalate_singleton]
  rw [lines, hsplit]
  rfl

/-- Text that is made of whole lines is cut apart from what follows it. -/
theorem lines_append_lines {text : List Char} (rest : List Char)
    (htext : text = [] ∨ text.getLast? = some '\n') :
    lines (text ++ rest) = lines text ++ lines rest := by
  induction hlength : text.length using Nat.strongRecOn generalizing text with
  | ind n ih =>
    rcases htext with rfl | hlast
    · rfl
    · -- take the first line off
      obtain ⟨line, text', rfl, hline⟩ :=
        List.eq_append_cons_of_mem (List.mem_of_getLast? hlast)
      have htext' : text' = [] ∨ text'.getLast? = some '\n' := by
        cases text' with
        | nil => exact .inl rfl
        | cons c text' => exact .inr (by simpa using hlast)
      have hshorter : text'.length < n := by
        rw [← hlength, List.length_append, List.length_cons]
        omega
      rw [List.append_assoc, List.cons_append, lines_append _ hline,
        lines_append _ hline, ih _ hshorter htext' rfl, List.cons_append]

theorem dropReturn_of_getLast? {line : List Char}
    (h : ∀ c ∈ line.getLast?, isBlank c = false) : dropReturn line = line := by
  refine if_neg ?_
  intro hreturn
  have := h '\r' hreturn
  revert this
  decide

theorem lines_unlines {ls : List String}
    (hline : ∀ l ∈ ls, '\n' ∉ l.toList)
    (hsolid : ∀ l ∈ ls, ∀ c ∈ l.toList.getLast?, isBlank c = false) :
    lines (unlines ls).toList = ls.map String.toList := by
  rw [toList_unlines]
  induction ls with
  | nil => rfl
  | cons l ls ih =>
    rw [List.forall_mem_cons] at hline hsolid
    rw [List.flatMap_cons, List.append_assoc, List.singleton_append,
      lines_append _ hline.1, dropReturn_of_getLast? hsolid.1,
      ih hline.2 hsolid.2, List.map_cons]

/-- The lines, each with as many blanks before it as given for its index. -/
def indented (indent : Nat → Nat) (ls : List String) : List String :=
  ls.mapIdx fun i l => String.ofList (List.replicate (indent i) ' ') ++ l

theorem indented_cons (indent : Nat → Nat) (l : String) (ls : List String) :
    indented indent (l :: ls) =
      (String.ofList (List.replicate (indent 0) ' ') ++ l) ::
        indented (fun i => indent (i + 1)) ls := by
  simp [indented, List.mapIdx_cons]

/-- Trimming takes away blanks, up to a text without blanks at its ends. -/
theorem trim_append {blanks cs : List Char} (hblanks : ∀ c ∈ blanks, isBlank c)
    (hfirst : ∀ c ∈ cs.head?, isBlank c = false)
    (hlast : ∀ c ∈ cs.getLast?, isBlank c = false) :
    trim (blanks ++ cs) = cs := by
  have hkeep : ∀ ds : List Char, (∀ c ∈ ds.head?, isBlank c = false) →
      ds.dropWhile isBlank = ds := by
    intro ds hds
    cases ds with
    | nil => rfl
    | cons d ds => simp [hds d rfl]
  have hstart : trimStart (blanks ++ cs) = cs := by
    rw [trimStart, List.dropWhile_append_of_pos hblanks, hkeep cs hfirst]
  rw [trim, hstart, trimEnd, hkeep cs.reverse (by simpa using hlast),
    List.reverse_reverse]

/-- A number is written with digits. -/
theorem not_mem_toString {c : Char} (hc : ¬ c.isDigit) (n : Nat) :
    c ∉ (toString n).toList := by
  intro h
  rw [Nat.toString_eq_ofList_toDigits, String.toList_ofList] at h
  exact hc (Nat.isDigit_of_mem_toDigits (by decide) (by decide) h)

/-- Trimming at the end takes away characters at the end only. -/
theorem trimEnd_prefix (cs : List Char) : trimEnd cs <+: cs := by
  apply List.reverse_suffix.mp
  rw [trimEnd, List.reverse_reverse]
  exact List.dropWhile_suffix _

theorem trim_prefix_trimStart (cs : List Char) : trim cs <+: trimStart cs :=
  trimEnd_prefix (trimStart cs)

end Text

namespace Lexeme

/-! ## Characters of words and marks -/

theorem toNat_of_isWordPart {c : Char} (h : isWordPart c) :
    48 ≤ c.toNat ∧ c.toNat ≤ 122 := by
  -- what letters and digits are, in terms of their code points
  have hranges : ((decide ('A'.val ≤ c.val ∧ c.val ≤ 'Z'.val) ||
      ('a'.val ≤ c.val && c.val ≤ 'z'.val)) ||
      ('0'.val ≤ c.val && c.val ≤ '9'.val)) || c = '_' := h
  simp only [Bool.or_eq_true, Bool.and_eq_true, decide_eq_true_eq,
    UInt32.le_iff_toNat_le] at hranges
  rcases hranges with ((h | h) | h) | rfl
  · exact ⟨Nat.le_trans (by decide) h.1, Nat.le_trans h.2 (by decide)⟩
  · exact ⟨Nat.le_trans (by decide) h.1, Nat.le_trans h.2 (by decide)⟩
  · exact ⟨Nat.le_trans (by decide) h.1, Nat.le_trans h.2 (by decide)⟩
  · decide

theorem isBlank_of_isWordPart {c : Char} (h : isWordPart c) :
    Text.isBlank c = false := by
  have := toNat_of_isWordPart h
  simp only [Text.isBlank, Text.blankRanges, List.any_cons, List.any_nil,
    Bool.or_eq_false_iff, Bool.and_eq_false_iff, decide_eq_false_iff_not,
    and_true]
  omega

theorem solid_of_isWordStart {c : Char} (h : isWordStart c) :
    Text.isBlank c = false ∧ c ≠ '#' := by
  refine ⟨isBlank_of_isWordPart (isWordPart_of_isWordStart h), ?_⟩
  rintro rfl
  revert h
  decide

theorem isBlank_of_isMark {c : Char} (h : isMark c) :
    Text.isBlank c = false := by
  simp only [isMark, decide_eq_true_eq, List.mem_cons, List.not_mem_nil,
    or_false] at h
  rcases h with rfl | rfl | rfl | rfl | rfl <;> decide

/-- A piece that stands for a token does not end in a blank. -/
theorem isBlank_getLast?_spelling {l : Lexeme} {n : Nat} {t : Token}
    (hl : l.IsProper) (ht : l.token? n = some t) :
    ∀ c ∈ l.spelling.getLast?, Text.isBlank c = false := by
  intro c hc
  cases l with
  | word text =>
    have hmem : c ∈ text := List.mem_of_getLast? hc
    exact isBlank_of_isWordPart (isWordPart_of_isWord hl c hmem)
  | quoted text =>
    rw [spelling, List.getLast?_concat] at hc
    cases hc
    decide
  | mark d =>
    cases hc
    exact isBlank_of_isMark hl
  | noise d => cases ht

end Lexeme

/-! ## The tokens of a line -/

namespace Token

/-- A keyword on line `n`. -/
def ofKeyword (n : Nat) (k : Keyword) : Token :=
  { kind := .keyword k, text := k.spelling, line := n }

/-- A name on line `n`. -/
def ofName (n : Nat) (name : String) : Token :=
  { kind := .identifier, text := name, line := n }

/-- A quoted text on line `n`. -/
def ofText (n : Nat) (text : String) : Token :=
  { kind := .literal, text, line := n }

/-- A mark on line `n`. -/
def ofMark (n : Nat) (c : Char) : Token :=
  { kind := .symbol, text := .singleton c, line := n }

/-- On line `n` the text is cut into the tokens.  It has no blank at its
    end and no line feed in it. -/
structure Spells (n : Nat) (cs : List Char) (ts : List Token) : Prop where
  cut : ∃ ls, Lexeme.IsCut cs ls ∧ ls.filterMap (Lexeme.token? n) = ts
  solid : ∀ c ∈ cs.getLast?, Text.isBlank c = false
  oneLine : '\n' ∉ cs

namespace Spells

variable {n : Nat} {cs : List Char} {ts : List Token}

theorem nil (n : Nat) : Spells n [] [] where
  cut := ⟨[], .nil, rfl⟩
  solid := by simp
  oneLine := by simp

/-- One piece more, which stands for a token. -/
theorem piece {l : Lexeme} {t : Token} (hl : l.IsProper)
    (ht : l.token? n = some t) (hline : '\n' ∉ l.spelling)
    (hends : ∀ text, l = .word text → Lexeme.EndsWord cs)
    (h : Spells n cs ts) : Spells n (l.spelling ++ cs) (t :: ts) where
  cut := by
    obtain ⟨ls, hls, rfl⟩ := h.cut
    exact ⟨l :: ls, hls.cons hl hends, List.filterMap_cons_some ht⟩
  solid := by
    intro c hc
    rw [List.getLast?_append] at hc
    cases hlast : cs.getLast? with
    | none =>
      rw [hlast, Option.none_or] at hc
      exact Lexeme.isBlank_getLast?_spelling hl ht c hc
    | some d =>
      rw [hlast, Option.some_or] at hc
      exact h.solid c (hlast ▸ hc)
  oneLine := by
    rw [List.mem_append]
    rintro (hmem | hmem)
    · exact hline hmem
    · exact h.oneLine hmem

/-- A blank between two tokens. -/
theorem blank (h : Spells n cs ts) (hcs : cs ≠ []) :
    Spells n (' ' :: cs) ts where
  cut := by
    obtain ⟨ls, hls, rfl⟩ := h.cut
    exact ⟨.noise ' ' :: ls,
      .noise (by decide) (by decide) (by decide) hls, rfl⟩
  solid := by
    rw [List.getLast?_cons_of_ne_nil hcs]
    exact h.solid
  oneLine := by simpa using h.oneLine

theorem mark {c : Char} (hc : Lexeme.isMark c) (h : Spells n cs ts) :
    Spells n (c :: cs) (ofMark n c :: ts) := by
  have hline : '\n' ∉ (Lexeme.mark c).spelling := by
    rw [Lexeme.spelling, List.mem_singleton]
    rintro rfl
    revert hc
    decide
  exact h.piece (l := .mark c) hc rfl hline (by simp)

/-- A quoted text. -/
theorem literal {text : String} (hquote : '"' ∉ text.toList)
    (hline : '\n' ∉ text.toList) (h : Spells n cs ts) :
    Spells n ('"' :: (text.toList ++ '"' :: cs)) (ofText n text :: ts) := by
  have := h.piece (l := .quoted text.toList) (t := ofText n text) hquote
    (by simp [Lexeme.token?, ofText])
    (by simpa [Lexeme.spelling] using hline) (by simp)
  simpa [Lexeme.spelling] using this

/-- A word, up to a character that does not go on it. -/
theorem word {w : String} {t : Token} (hw : Lexeme.isWord w.toList)
    (ht : Lexeme.token? n (.word w.toList) = some t)
    (hcs : Lexeme.EndsWord cs) (h : Spells n cs ts) :
    Spells n (w.toList ++ cs) (t :: ts) := by
  refine h.piece (l := .word w.toList) hw ht ?_ fun _ _ => hcs
  intro hmem
  have := Lexeme.isWordPart_of_isWord hw _ hmem
  revert this
  decide

theorem name {w : String} (hw : Lexeme.isWord w.toList)
    (hkeyword : Keyword.ofSpelling? w = none)
    (hcs : Lexeme.EndsWord cs) (h : Spells n cs ts) :
    Spells n (w.toList ++ cs) (ofName n w :: ts) :=
  h.word hw (by simp [Lexeme.token?, hkeyword, ofName]) hcs

theorem keyword (k : Keyword)
    (hcs : Lexeme.EndsWord cs) (h : Spells n cs ts) :
    Spells n (k.spelling.toList ++ cs) (ofKeyword n k :: ts) :=
  h.word (by cases k <;> decide) (by cases k <;> rfl) hcs

end Spells

/-- A line has the tokens that what it says is cut into. -/
theorem ofLine_of_content? {n : Nat} {line content : List Char}
    {ts : List Token} (hcontent : Text.content? line = some content)
    (h : Spells n content ts) : ofLine line n = .ok (ts ++ [newline n]) := by
  obtain ⟨ls, hls, rfl⟩ := h.cut
  rw [ofLine, hcontent]
  simp only [Lexeme.split?_of_isCut hls]

/-- What a line says begins at its first character that is not blank. -/
theorem ofLine_of_spells {n : Nat} {cs : List Char} {ts : List Token}
    (h : Spells n cs ts)
    (hfirst : ∃ c ∈ cs.head?, Text.isBlank c = false ∧ c ≠ '#')
    (indent : Nat) :
    ofLine (List.replicate indent ' ' ++ cs) n = .ok (ts ++ [newline n]) := by
  obtain ⟨c, hc, hblank, hhash⟩ := hfirst
  have htrim : Text.trim (List.replicate indent ' ' ++ cs) = cs := by
    apply Text.trim_append
    · intro d hd
      rw [List.eq_of_mem_replicate hd]
      decide
    · intro d hd
      obtain rfl : c = d := Option.mem_unique hc hd
      exact hblank
    · exact h.solid
  obtain ⟨rest, rfl⟩ : ∃ rest, cs = c :: rest := List.head?_eq_some_iff.mp hc
  refine ofLine_of_content? ?_ h
  rw [Text.content?, htrim]
  exact if_neg hhash

/-! ## The tokens of a script -/

/-- The lines, the first of which has number `n`, give the tokens. -/
inductive Scans : Nat → List String → List Token → Prop where
  | nil (n : Nat) : Scans n [] []
  | cons {n line lines ts rest} : Spells n line.toList ts →
      (∃ c ∈ line.toList.head?, Lexeme.isWordStart c) →
      Scans (n + 1) lines rest →
      Scans n (line :: lines) (ts ++ newline n :: rest)

theorem Scans.append {n : Nat} {ls ls' : List String} {ts ts' : List Token}
    (h : Scans n ls ts) (h' : Scans (n + ls.length) ls' ts') :
    Scans n (ls ++ ls') (ts ++ ts') := by
  induction h with
  | nil => simpa using h'
  | cons hspells hfirst _ ih =>
    simp only [List.length_cons] at h'
    rw [List.cons_append, List.append_assoc, List.cons_append]
    refine .cons hspells hfirst (ih ?_)
    rwa [Nat.add_assoc, Nat.add_comm 1]

theorem Scans.lines_indented {n : Nat} {ls : List String} {ts : List Token}
    (h : Scans n ls ts) (indent : Nat → Nat) :
    Text.lines (Text.unlines (Text.indented indent ls)).toList =
      (Text.indented indent ls).map String.toList := by
  have hall : ∀ l ∈ Text.indented indent ls, '\n' ∉ l.toList ∧
      ∀ c ∈ l.toList.getLast?, Text.isBlank c = false := by
    induction h generalizing indent with
    | nil => simp [Text.indented]
    | cons hspells hfirst _ ih =>
      rw [Text.indented_cons, List.forall_mem_cons]
      refine ⟨⟨?_, ?_⟩, ih _⟩
      · simp [hspells.oneLine]
      · obtain ⟨c, hc, -⟩ := hfirst
        obtain ⟨rest, hrest⟩ := List.head?_eq_some_iff.mp hc
        have := hspells.solid
        simp [hrest] at this ⊢
        exact this
  exact Text.lines_unlines (fun l hl => (hall l hl).1)
    (fun l hl => (hall l hl).2)

theorem Scans.ofNumbered_indented {n : Nat} {ls : List String}
    {ts : List Token} (h : Scans n ls ts) (indent : Nat → Nat) :
    ofNumbered (((Text.indented indent ls).map String.toList).zipIdx n) =
      .ok ts := by
  induction h generalizing indent with
  | nil => rfl
  | @cons n line lines ts rest hspells hfirst _ ih =>
    -- the indices of the lines that follow start from 0 again
    have hrest := ih fun i => indent (i + 1)
    obtain ⟨c, hc, hstart⟩ := hfirst
    have hline := ofLine_of_spells hspells
      ⟨c, hc, Lexeme.solid_of_isWordStart hstart⟩ (indent 0)
    rw [Text.indented_cons, List.map_cons, List.zipIdx_cons, ofNumbered,
      String.toList_append, String.toList_ofList, hline, hrest]
    simp [bind, Except.bind, pure, Except.pure]

/-- A text made of lines has the tokens of its lines, with numbers for the
    places of the lines. -/
theorem ofScript_of_scans {ls : List String} {ts : List Token}
    (h : Scans 1 ls ts) (indent : Nat → Nat) :
    ofScript (Text.unlines (Text.indented indent ls)) =
      .ok ((ts ++ [endOfInput ls.length]).map (mapLine Text.lineNumber)) := by
  rw [ofScript, h.lines_indented, ofLines_eq, Text.numbered,
    ofNumbered_renumber, h.ofNumbered_indented]
  simp [Text.indented, renumber_ok, Except.map, mapLine, endOfInput]

/-! ## Names in a script are words -/

theorem isWord_of_mem_ofLine {line : List Char} {n : Nat} {ts : List Token}
    (h : ofLine line n = .ok ts) :
    ∀ t ∈ ts, t.kind = .identifier → Lexeme.isWord t.text.toList := by
  intro t ht hkind
  unfold ofLine at h
  split at h
  · cases h
    cases ht
  · split at h
    · cases h
    · rename_i content _ lexemes hsplit
      cases h
      rcases List.mem_append.mp ht with ht | ht
      · obtain ⟨l, hl, htoken⟩ := List.mem_filterMap.mp ht
        cases l with
        | word text =>
          cases htoken
          have hcut := Lexeme.isCut_of_split? hsplit
          simpa [Lexeme.IsProper] using hcut.isProper_of_mem hl
        | quoted text => cases htoken; cases hkind
        | mark c => cases htoken; cases hkind
        | noise c => cases htoken
      · rw [List.mem_singleton.mp ht] at hkind
        cases hkind

theorem isWord_of_mem_ofScript {script : String} {ts : List Token}
    (h : ofScript script = .ok ts) :
    ∀ t ∈ ts, t.kind = .identifier → Lexeme.isWord t.text.toList := by
  intro t ht hkind
  obtain ⟨body, hbody, -, rfl⟩ := exists_wholeLines_of_ofScript h
  rcases List.mem_append.mp ht with ht | ht
  · obtain ⟨l, -, found, hfound, ht⟩ := exists_ofLine_of_mem hbody ht
    exact isWord_of_mem_ofLine hfound t ht hkind
  · rw [List.mem_singleton.mp ht] at hkind
    cases hkind

end Token

end SayScript
