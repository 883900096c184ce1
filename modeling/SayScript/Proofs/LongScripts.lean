import SayScript.Proofs.Concatenation

/-! # Scripts with more lines than numbers

    A line number has 32 bits, and nothing keeps a script from having 2^32
    lines or more.  What is said about the numbers of lines can fail then, and
    only then.  To show that it does, a script is pushed down by line feeds in
    front of it.  They hold no token and open no block, so that only the
    numbers change, and no line has to be looked at. -/

namespace SayScript

namespace Text

/-- A text of `n` line feeds. -/
def newlines (n : Nat) : String :=
  String.ofList (List.replicate n '\n')

theorem lines_newlines (n : Nat) :
    lines (newlines n).toList = List.replicate n [] := by
  rw [newlines, String.toList_ofList]
  induction n with
  | zero => rfl
  | succ n ih =>
    have hfirst : lines ([] ++ '\n' :: List.replicate n '\n') =
        [] :: lines (List.replicate n '\n') :=
      lines_append (List.replicate n '\n') List.not_mem_nil
    rw [List.replicate_succ, List.replicate_succ, ← ih]
    exact hfirst

theorem length_lines_newlines (n : Nat) :
    (lines (newlines n).toList).length = n := by
  rw [lines_newlines, List.length_replicate]

/-- Line feeds are whole lines. -/
theorem newlines_eq_or_getLast? (n : Nat) :
    newlines n = "" ∨ (newlines n).toList.getLast? = some '\n' := by
  cases n with
  | zero => exact .inl rfl
  | succ n =>
    right
    rw [newlines, String.toList_ofList, List.getLast?_replicate]
    simp

end Text

theorem Token.ofNumbered_newlines (n : Nat) :
    ofNumbered (Text.numberedLines (Text.newlines n).toList) = .ok [] := by
  have hline : ∀ l ∈ Text.numberedLines (Text.newlines n).toList,
      ofLine l.1 l.2 = .ok [] := by
    intro l hl
    have hmem := Text.mem_lines_of_mem_numberedLines hl
    rw [Text.lines_newlines] at hmem
    rw [List.eq_of_mem_replicate hmem]
    rfl
  have htokens : ∀ l ∈ Text.numberedLines (Text.newlines n).toList,
      lineTokens l = [] := fun l hl => lineTokens_of_ofLine (hline l hl)
  rw [ofNumbered_eq_ok_iff]
  constructor
  · intro l hl
    rw [hline l hl, htokens l hl]
  · exact (List.flatMap_eq_nil_iff.mpr htokens).symm

theorem Token.ofScript_newlines (n : Nat) :
    ofScript (Text.newlines n) = .ok [endOfInput (Text.lineNumber n)] := by
  rw [ofScript_of_ofNumbered (ofNumbered_newlines n),
    Text.length_lines_newlines]
  rfl

/-- The tokens of a script behind line feeds have other numbers. -/
theorem Token.ofScript_newlines_append (n : Nat) (script : String) :
    ofScript (Text.newlines n ++ script) =
      renumber (fun m => Text.lineNumber (m + n)) (ofScript script) := by
  have happend := ofScript_append_eq (Text.newlines_eq_or_getLast? n)
    (Text.shifts_lineNumber (Text.newlines n) script)
  rw [ofNumbered_newlines, Text.length_lines_newlines] at happend
  rw [happend]
  cases ofScript script <;> rfl

/-- A script behind line feeds is the same program, or has the same fault on
    lines with other numbers. -/
theorem Program.ofScript_newlines_append (limit n : Nat) (script : String) :
    ofScript limit (Text.newlines n ++ script) =
      (ofScript limit script).mapError
        (Rejection.mapLines fun m => Text.lineNumber (m + n)) := by
  have hnone : ofScript limit (Text.newlines n) = .ok ⟨[]⟩ := by
    rw [ofScript_of_tokens (Token.ofScript_newlines n)]
    rfl
  rw [ofScript_append_of_ok (Text.newlines_eq_or_getLast? n)
    (Text.shifts_lineNumber _ _) hnone, Text.length_lines_newlines]
  cases ofScript limit script <;> rfl

end SayScript
