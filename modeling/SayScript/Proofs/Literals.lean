import SayScript.Proofs.Lines
import SayScript.Target.Text

/-! # String literals read back

    A reader of C++ text that stands after an opening quote takes characters
    up to the first quote without a backslash before it; a backslash takes the
    next character as it is.  `readLiteral` is that reader.  Whatever the
    content of a literal is, the reader finds exactly the content and stops
    exactly where the literal ends, so no content can end its literal or take
    in the code that follows.

    One step reads one character of the content, with its backslash if it has
    one.  All else follows from that step, with any text after it. -/

namespace SayScript.Target

/-! ## Reading literals -/

/-- Reads a string literal from after its opening quote: its content, and the
    text after its closing quote.  There is no result if the literal is not
    closed. -/
def readLiteral : List Char → Option (List Char × List Char)
  | [] => none
  | '"' :: rest => some ([], rest)
  | ['\\'] => none
  | '\\' :: c :: rest => (readLiteral rest).map (Prod.map (c :: ·) id)
  | c :: rest => (readLiteral rest).map (Prod.map (c :: ·) id)

/-- A literal ends with a quote. -/
theorem quote_suffix_of_readLiteral {text content rest : List Char}
    (h : readLiteral text = some (content, rest)) : '"' :: rest <:+ text := by
  fun_induction readLiteral text generalizing content with
  | case1 => cases h
  | case2 rest' =>
    cases h
    exact List.suffix_refl _
  | case3 => cases h
  | case4 c rest' ih =>
    obtain ⟨⟨content', rest''⟩, hread, hpair⟩ := Option.map_eq_some_iff.mp h
    cases hpair
    exact (ih hread).trans ⟨['\\', c], rfl⟩
  | case5 c rest' _ _ _ ih =>
    obtain ⟨⟨content', rest''⟩, hread, hpair⟩ := Option.map_eq_some_iff.mp h
    cases hpair
    exact (ih hread).trans (List.suffix_cons c rest')

/-- A character of the content is read in one step, however it is written. -/
theorem readLiteral_escapeChar (c : Char) (text : List Char) :
    readLiteral (escapeChar c ++ text) =
      (readLiteral text).map (Prod.map (c :: ·) id) := by
  unfold escapeChar
  split
  · rfl
  · -- neither a quote nor a backslash, so only the last case of the reader fits
    rename_i hc
    rw [not_or] at hc
    rw [List.singleton_append, readLiteral]
    · exact hc.1
    · rintro rfl
      exact absurd rfl hc.2
    · intro d rest hd
      exact absurd hd hc.2

/-- The content is read as it is, and then what follows it. -/
theorem readLiteral_escape_append (content : String) (text : List Char) :
    readLiteral ((escape content).toList ++ text) =
      (readLiteral text).map (Prod.map (content.toList ++ ·) id) := by
  rw [escape, String.toList_ofList]
  induction content.toList with
  | nil => exact Option.map_id'.symm
  | cons c cs ih =>
    rw [List.flatMap_cons, List.append_assoc, readLiteral_escapeChar, ih,
      Option.map_map]
    rfl

/-- A quote after the escaped content ends the literal. -/
theorem readLiteral_escape (content : String) (rest : List Char) :
    readLiteral ((escape content).toList ++ '"' :: rest) =
      some (content.toList, rest) := by
  rw [readLiteral_escape_append]
  simp [readLiteral]

/-- No quote within the escaped content ends the literal. -/
theorem readLiteral_escape_eq_none (content : String) :
    readLiteral (escape content).toList = none := by
  rw [← List.append_nil (escape content).toList, readLiteral_escape_append]
  rfl

/-- The text of a literal starts with its opening quote. -/
theorem Value.toList_source_text (content : String) (rest : List Char) :
    (Value.text content).source.toList ++ rest =
      '"' :: ((escape content).toList ++ '"' :: rest) := by
  simp [Value.source]

/-! ## Reading chains -/

/-- What stands before a further literal in a chain of printed values, with
    the opening quote of the literal. -/
def link : List Char :=
  " << \"".toList

/-- Reads literals as long as each has ` << ` before it: their contents, and
    the text from where no such literal follows.  There is no result if the
    last literal is not closed. -/
def readLinks (text : List Char) : Option (List String × List Char) :=
  if link.isPrefixOf text then
    match _hread : readLiteral (text.drop link.length) with
    | none => none
    | some (content, rest) =>
      (readLinks rest).map (Prod.map (String.ofList content :: ·) id)
  else
    some ([], text)
termination_by text.length
decreasing_by
  -- a literal takes its closing quote, if nothing else
  have hle := (quote_suffix_of_readLiteral _hread).length_le
  rw [List.length_cons, List.length_drop] at hle
  omega

/-- Reads literals with ` << ` between them, if the text starts with one: the
    first is then read as if it were linked to something before it. -/
def readChain (text : List Char) : Option (List String × List Char) :=
  if text.head? = some '"' then readLinks (" << ".toList ++ text)
  else some ([], text)

theorem readLinks_of_not_link {text : List Char} (h : ¬ link <+: text) :
    readLinks text = some ([], text) := by
  rw [readLinks, if_neg]
  rwa [List.isPrefixOf_iff_prefix]

/-- A literal with ` << ` before it is read in one step. -/
theorem readLinks_source (content : String) (text : List Char) :
    readLinks (" << ".toList ++ ((Value.text content).source.toList ++ text)) =
      (readLinks text).map (Prod.map (content :: ·) id) := by
  have hlink : " << ".toList ++
      ((Value.text content).source.toList ++ text) =
      link ++ ((escape content).toList ++ '"' :: text) := by
    rw [Value.toList_source_text]
    rfl
  have hread : readLiteral
      ((link ++ ((escape content).toList ++ '"' :: text)).drop link.length) =
      some (content.toList, text) := by
    rw [List.drop_left, readLiteral_escape]
  rw [hlink, readLinks, if_pos (List.isPrefixOf_iff_prefix.mpr
    (List.prefix_append _ _))]
  split
  · rename_i hnone
    rw [hnone] at hread
    cases hread
  · rename_i hsome
    rw [hsome] at hread
    cases hread
    rw [String.ofList_toList]

/-- Literals with ` << ` before each are read up to a text that does not go
    on with one more. -/
theorem readLinks_flatMap (contents : List String) {rest : List Char}
    (h : ¬ link <+: rest) :
    readLinks (contents.flatMap (fun content =>
        " << ".toList ++ (Value.text content).source.toList) ++ rest) =
      some (contents, rest) := by
  induction contents with
  | nil => exact readLinks_of_not_link h
  | cons content contents ih =>
    rw [List.flatMap_cons, List.append_assoc, List.append_assoc,
      readLinks_source, ih]
    rfl

/-- Literals with ` << ` between them are read up to a text that goes on with
    neither a literal nor a link. -/
theorem readChain_intercalate (contents : List String) {rest : List Char}
    (hquote : rest.head? ≠ some '"') (hlink : ¬ link <+: rest) :
    readChain ((" << ".intercalate (contents.map fun content =>
        (Value.text content).source)).toList ++ rest) =
      some (contents, rest) := by
  cases contents with
  | nil => exact if_neg hquote
  | cons content contents =>
    have htext : (" << ".intercalate ((content :: contents).map fun content =>
        (Value.text content).source)).toList =
        (Value.text content).source.toList ++ contents.flatMap fun content =>
          " << ".toList ++ (Value.text content).source.toList := by
      rw [String.toList_intercalate, List.map_map, List.map_cons]
      exact (Text.intercalate_cons_eq _ _ _).trans
        (by rw [List.flatMap_map]; rfl)
    have hhead : ((Value.text content).source.toList ++
        ((contents.flatMap fun content =>
          " << ".toList ++ (Value.text content).source.toList) ++ rest)).head? =
        some '"' := by
      rw [Value.toList_source_text]
      rfl
    rw [htext, List.append_assoc, readChain, if_pos hhead, readLinks_source,
      readLinks_flatMap contents hlink]
    rfl

/-! ## Literals in code -/

/-- What follows the values in a line that prints. -/
def printEnd (lineEnd : Bool) : String :=
  if lineEnd then " << std::endl;" else ";"

/-- The literals in a line that prints are read as they are, up to the end of
    the line. -/
theorem exists_readLinks_print (contents : List String) (lineEnd : Bool)
    (depth : Nat) :
    ∃ links,
      (Statement.print (contents.map Value.text) lineEnd).lines depth =
        [indent depth ++ "std::cout" ++ links] ∧
      readLinks links.toList = some (contents, (printEnd lineEnd).toList) := by
  have hend : ¬ link <+: (printEnd lineEnd).toList := by
    cases lineEnd <;> decide
  refine ⟨String.join (contents.map fun content =>
    " << " ++ (Value.text content).source) ++ printEnd lineEnd, ?_, ?_⟩
  · rw [Statement.lines, List.map_map]
    cases lineEnd <;> simp [printEnd, String.append_assoc, Function.comp_def]
  · rw [String.toList_append, String.toList_join, List.flatMap_map]
    simp only [String.toList_append]
    exact readLinks_flatMap contents hend

/-- **String literals read back.**  A reader that starts after the opening
    quote of a literal finds its content and stops at what follows the
    literal, whatever both are; the content alone does not end the literal.
    So a chain of literals with ` << ` between them is read as the contents
    that it was made from, and so is what a line prints. -/
theorem literals_read_back :
    (∀ (content : String) (rest : List Char),
      (∃ text, (Value.text content).source.toList ++ rest = '"' :: text ∧
        readLiteral text = some (content.toList, rest)) ∧
      readLiteral (escape content).toList = none) ∧
    (∀ (contents : List String) (rest : List Char),
      rest.head? ≠ some '"' → ¬ link <+: rest →
        readChain ((" << ".intercalate (contents.map fun content =>
          (Value.text content).source)).toList ++ rest) =
          some (contents, rest)) ∧
    (∀ (contents : List String) (lineEnd : Bool) (depth : Nat), ∃ links,
      (Statement.print (contents.map Value.text) lineEnd).lines depth =
        [indent depth ++ "std::cout" ++ links] ∧
      readLinks links.toList =
        some (contents, (printEnd lineEnd).toList)) := by
  refine ⟨?_, ?_, exists_readLinks_print⟩
  · intro content rest
    exact ⟨⟨_, Value.toList_source_text content rest,
      readLiteral_escape content rest⟩, readLiteral_escape_eq_none content⟩
  · intro contents rest hquote hlink
    exact readChain_intercalate contents hquote hlink

/-- Contents that end in a backslash, look like the end of a literal and the
    code after it, or are empty. -/
theorem literals_read_back_injected :
    let contents := ["\\", "\" << std::endl; //", "", "\\\""]
    let chain := " << ".intercalate (contents.map fun content =>
      (Value.text content).source)
    chain = "\"\\\\\" << \"\\\" << std::endl; //\" << \"\" << \"\\\\\\\"\"" ∧
      readChain (chain.toList ++ ";".toList) =
        some (contents, ";".toList) := by
  intro contents chain
  refine ⟨by decide, ?_⟩
  exact literals_read_back.2.1 contents ";".toList (by decide) (by decide)

end SayScript.Target
