import SayScript.Token.Scan

/-! # Cuts of a line

    `Lexeme.split?` cuts a line into lexemes from left to right.  `IsCut`
    says which cuts are right without saying how they are found: every piece
    is of its class, the pieces make up the line, and a word is not followed
    by a character that would go on it.  A line has at most one such cut,
    and `split?` finds it. -/

namespace SayScript.Lexeme

/-- Is the text a word: a letter or underscore, then letters, digits and
    underscores? -/
def isWord : List Char → Bool
  | [] => false
  | c :: cs => isWordStart c && cs.all isWordPart

/-- No word goes on into the text. -/
def EndsWord (rest : List Char) : Prop :=
  ∀ c ∈ rest.head?, isWordPart c = false

theorem endsWord_nil : EndsWord [] := by
  intro c hc
  cases hc

theorem endsWord_of_head? {rest : List Char} {c : Char}
    (hrest : rest.head? = some c) (hc : isWordPart c = false) :
    EndsWord rest := by
  intro d hd
  obtain rfl : c = d := Option.some.inj (hrest.symm.trans hd)
  exact hc

theorem endsWord_cons {c : Char} (hc : isWordPart c = false)
    (rest : List Char) : EndsWord (c :: rest) :=
  endsWord_of_head? rfl hc

/-- The lexemes are the pieces of the text. -/
inductive IsCut : List Char → List Lexeme → Prop where
  | nil : IsCut [] []
  | word {text rest ls} : isWord text → EndsWord rest → IsCut rest ls →
      IsCut (text ++ rest) (word text :: ls)
  | quoted {text rest ls} : '"' ∉ text → IsCut rest ls →
      IsCut ('"' :: (text ++ '"' :: rest)) (quoted text :: ls)
  | mark {c rest ls} : isMark c → IsCut rest ls →
      IsCut (c :: rest) (mark c :: ls)
  | noise {c rest ls} : c ≠ '"' → isWordStart c = false →
      isMark c = false → IsCut rest ls → IsCut (c :: rest) (noise c :: ls)

/-- The pieces make up the text. -/
theorem IsCut.spelling_eq {cs : List Char} {ls : List Lexeme}
    (h : IsCut cs ls) : ls.flatMap spelling = cs := by
  induction h with
  | nil => rfl
  | _ => simp_all [spelling]

/-- Is the piece one of its class? -/
def IsProper : Lexeme → Prop
  | word text => isWord text
  | quoted text => '"' ∉ text
  | mark c => isMark c
  | noise c => c ≠ '"' ∧ isWordStart c = false ∧ isMark c = false

theorem IsCut.isProper_of_mem {cs : List Char} {l : Lexeme}
    {ls : List Lexeme} (h : IsCut cs ls) (hl : l ∈ ls) : l.IsProper := by
  induction h with
  | nil => cases hl
  | word htext _ _ ih =>
    rcases List.mem_cons.mp hl with rfl | hl
    · exact htext
    · exact ih hl
  | quoted htext _ ih =>
    rcases List.mem_cons.mp hl with rfl | hl
    · exact htext
    · exact ih hl
  | mark hc _ ih =>
    rcases List.mem_cons.mp hl with rfl | hl
    · exact hc
    · exact ih hl
  | noise hquote hstart hmark _ ih =>
    rcases List.mem_cons.mp hl with rfl | hl
    · exact ⟨hquote, hstart, hmark⟩
    · exact ih hl

/-- One piece more in front, which does not run into what follows it. -/
theorem IsCut.cons {cs : List Char} {l : Lexeme} {ls : List Lexeme}
    (h : IsCut cs ls) (hl : l.IsProper)
    (hends : ∀ text, l = .word text → EndsWord cs) :
    IsCut (l.spelling ++ cs) (l :: ls) := by
  cases l with
  | word text => exact .word hl (hends text rfl) h
  | quoted text =>
    have hquoted := IsCut.quoted hl h
    simpa [spelling] using hquoted
  | mark c => exact .mark hl h
  | noise c =>
    obtain ⟨hquote, hstart, hmark⟩ := hl
    exact .noise hquote hstart hmark h

/-! ## The classes of characters -/

theorem isWordPart_of_isWordStart {c : Char} (h : isWordStart c) :
    isWordPart c := by
  simp only [isWordStart, isWordPart, Char.isAlphanum, Bool.or_eq_true] at *
  rcases h with h | h
  · exact .inl (.inl h)
  · exact .inr h

theorem isWordPart_quote : isWordPart '"' = false := by decide

theorem isWordPart_of_isMark {c : Char} (h : isMark c) :
    isWordPart c = false := by
  simp only [isMark, decide_eq_true_eq, List.mem_cons, List.not_mem_nil,
    or_false] at h
  rcases h with rfl | rfl | rfl | rfl | rfl <;> decide

theorem isWordStart_of_not_isWordPart {c : Char} (h : isWordPart c = false) :
    isWordStart c = false := by
  cases hstart : isWordStart c with
  | false => rfl
  | true =>
    rw [isWordPart_of_isWordStart hstart] at h
    cases h

theorem ne_quote_of_isMark {c : Char} (h : isMark c) : c ≠ '"' := by
  rintro rfl
  revert h
  decide

theorem isWordPart_of_isWord {text : List Char} (h : isWord text) :
    ∀ c ∈ text, isWordPart c := by
  intro c hc
  cases text with
  | nil => cases h
  | cons d text =>
    simp only [isWord, Bool.and_eq_true, List.all_eq_true] at h
    rcases List.mem_cons.mp hc with rfl | hc
    · exact isWordPart_of_isWordStart h.1
    · exact h.2 c hc

/-- As many characters as can go on a word. -/
theorem takeWhile_append_of_endsWord {text rest : List Char}
    (htext : ∀ c ∈ text, isWordPart c) (hrest : EndsWord rest) :
    (text ++ rest).takeWhile isWordPart = text := by
  rw [List.takeWhile_append_of_pos htext]
  cases rest with
  | nil => simp
  | cons d rest => simp [hrest d rfl]

/-! ## Cutting finds the cut -/

theorem split?_word {text rest : List Char} (htext : isWord text)
    (hrest : EndsWord rest) :
    split? (text ++ rest) = (split? rest).map (word text :: ·) := by
  cases text with
  | nil => cases htext
  | cons c text =>
    simp only [isWord, Bool.and_eq_true, List.all_eq_true] at htext
    have hquote : c ≠ '"' := by
      rintro rfl
      have := isWordPart_of_isWordStart htext.1
      rw [isWordPart_quote] at this
      cases this
    have htake := takeWhile_append_of_endsWord htext.2 hrest
    have hdrop : (text ++ rest).dropWhile isWordPart = rest := by
      rw [List.dropWhile_append_of_pos htext.2]
      cases rest with
      | nil => rfl
      | cons d rest => simp [hrest d rfl]
    rw [List.cons_append, split?, if_neg hquote, if_pos htext.1, htake, hdrop]

theorem split?_quoted {text : List Char} (rest : List Char)
    (htext : '"' ∉ text) :
    split? ('"' :: (text ++ '"' :: rest)) =
      (split? rest).map (quoted text :: ·) := by
  have hall : ∀ c ∈ text, (decide (c ≠ '"')) = true := by
    intro c hc
    rw [decide_eq_true_eq]
    rintro rfl
    exact htext hc
  have htake : (text ++ '"' :: rest).takeWhile (· ≠ '"') = text := by
    rw [List.takeWhile_append_of_pos hall]
    simp
  have hdrop : (text ++ '"' :: rest).dropWhile (· ≠ '"') = '"' :: rest := by
    rw [List.dropWhile_append_of_pos hall]
    simp
  rw [split?, if_pos rfl]
  split
  · rename_i hnone
    rw [hdrop] at hnone
    cases hnone
  · rename_i hsome
    rw [hdrop] at hsome
    cases hsome
    rw [htake]

theorem split?_mark {c : Char} (rest : List Char) (hc : isMark c) :
    split? (c :: rest) = (split? rest).map (mark c :: ·) := by
  have hstart := isWordStart_of_not_isWordPart (isWordPart_of_isMark hc)
  rw [split?, if_neg (ne_quote_of_isMark hc), if_neg (by simp [hstart]),
    if_pos hc]

theorem split?_noise {c : Char} (rest : List Char) (hquote : c ≠ '"')
    (hstart : isWordStart c = false) (hmark : isMark c = false) :
    split? (c :: rest) = (split? rest).map (noise c :: ·) := by
  rw [split?, if_neg hquote, if_neg (by simp [hstart]),
    if_neg (by simp [hmark])]

theorem split?_of_isCut {cs : List Char} {ls : List Lexeme}
    (h : IsCut cs ls) : split? cs = some ls := by
  induction h with
  | nil => rw [split?]
  | word htext hrest _ ih => rw [split?_word htext hrest, ih]; rfl
  | quoted htext _ ih => rw [split?_quoted _ htext, ih]; rfl
  | mark hc _ ih => rw [split?_mark _ hc, ih]; rfl
  | noise hquote hstart hmark _ ih =>
    rw [split?_noise _ hquote hstart hmark, ih]
    rfl

/-- What is dropped up to a quote leaves that quote in front. -/
theorem eq_append_of_dropWhile {cs rest : List Char} {d : Char}
    (h : cs.dropWhile (· ≠ '"') = d :: rest) :
    cs = cs.takeWhile (· ≠ '"') ++ '"' :: rest := by
  have hd : d = '"' := by
    have := List.head?_dropWhile_not (· ≠ '"') cs
    rw [h] at this
    simpa using this
  rw [hd] at h
  rw [← h, List.takeWhile_append_dropWhile]

theorem quote_not_mem_takeWhile (cs : List Char) :
    '"' ∉ cs.takeWhile (· ≠ '"') := by
  intro hmem
  have := List.all_eq_true.mp List.all_takeWhile _ hmem
  simp at this

theorem isCut_of_split? {cs : List Char} {ls : List Lexeme}
    (h : split? cs = some ls) : IsCut cs ls := by
  fun_induction split? cs generalizing ls with
  | case1 =>
    cases h
    exact .nil
  | case2 cs hdrop => cases h
  | case3 cs d rest hdrop ih =>
    obtain ⟨ls, hls, rfl⟩ := Option.map_eq_some_iff.mp h
    have hcut := IsCut.quoted (quote_not_mem_takeWhile cs) (ih hls)
    rwa [← eq_append_of_dropWhile hdrop] at hcut
  | case4 c cs hquote hstart ih =>
    obtain ⟨ls, hls, rfl⟩ := Option.map_eq_some_iff.mp h
    have hword : isWord (c :: cs.takeWhile isWordPart) := by
      simp only [isWord, hstart, Bool.true_and]
      exact List.all_takeWhile
    -- a word is taken as long as it can be
    have hstop : EndsWord (cs.dropWhile isWordPart) := by
      intro d hd
      have := List.head?_dropWhile_not isWordPart cs
      rw [hd] at this
      exact this
    have := IsCut.word hword hstop (ih hls)
    rwa [List.cons_append, List.takeWhile_append_dropWhile] at this
  | case5 c cs hquote hstart hmark ih =>
    obtain ⟨ls, hls, rfl⟩ := Option.map_eq_some_iff.mp h
    exact .mark hmark (ih hls)
  | case6 c cs hquote hstart hmark ih =>
    obtain ⟨ls, hls, rfl⟩ := Option.map_eq_some_iff.mp h
    exact .noise hquote (by simpa using hstart) (by simpa using hmark)
      (ih hls)

end SayScript.Lexeme
