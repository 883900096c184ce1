import SayScript.Proofs.Literals

/-! # C++ text can be told apart

    The text of a source file determines the file, provided that all names
    in it are words.  Every piece of the text shows where it ends: a word by
    the character after it, a string literal by the first quote without a
    backslash, a statement by its last character, a list of statements by
    what can start no statement.  `Cancels` says so for one kind of piece:
    equal texts that start with two such pieces start with the same piece.

    A literal can hold any text at all, and a name can be `auto`, `return`
    or `std`.  What tells the lines apart is the character after their first
    word: a colon, a blank or a parenthesis. -/

namespace SayScript.Target

open Lexeme (isWord isWordPart EndsWord)

/-! ## Pieces that show where they end -/

/-- If two texts start with pieces for which `P` holds, and what follows the
    pieces satisfies `S`, the texts agree only if the pieces do. -/
def Cancels {α : Type} (P : α → Prop) (S : List Char → Prop)
    (piece : α → List Char) : Prop :=
  ∀ a b r r', P a → P b → S r → S r' → piece a ++ r = piece b ++ r' →
    a = b ∧ r = r'

namespace Cancels

variable {α : Type} {P : α → Prop} {S E : List Char → Prop}
  {piece : α → List Char}

/-- Less may follow the pieces. -/
theorem weaken (h : Cancels P S piece) (hE : ∀ r, E r → S r) :
    Cancels P E piece := by
  intro a b r r' ha hb hr hr'
  exact h a b r r' ha hb (hE r hr) (hE r' hr')

/-- A list of pieces ends where no further piece starts. -/
theorem flatMap (h : Cancels P S piece)
    (hnext : ∀ a r, P a → S (piece a ++ r)) (hlast : ∀ r, E r → S r)
    (hend : ∀ a r, P a → ¬ E (piece a ++ r)) :
    Cancels (fun as => ∀ a ∈ as, P a) E (List.flatMap piece) := by
  have hfollow : ∀ (as : List α) r, (∀ a ∈ as, P a) → E r →
      S (as.flatMap piece ++ r) := by
    intro as r has hr
    cases as with
    | nil => exact hlast r hr
    | cons a as =>
      rw [List.flatMap_cons, List.append_assoc]
      exact hnext a _ (has a List.mem_cons_self)
  -- piece by piece; if one list is used up before the other, what follows
  -- it would be an end and start with a piece as well
  intro as
  induction as with
  | nil =>
    intro bs r r' _ hbs hr _ heq
    cases bs with
    | nil => exact ⟨rfl, heq⟩
    | cons b bs =>
      rw [List.flatMap_nil, List.nil_append, List.flatMap_cons,
        List.append_assoc] at heq
      rw [heq] at hr
      exact absurd hr (hend b _ (hbs b List.mem_cons_self))
  | cons a as ih =>
    intro bs r r' has hbs hr hr' heq
    rw [List.forall_mem_cons] at has
    rw [List.flatMap_cons, List.append_assoc] at heq
    cases bs with
    | nil =>
      rw [List.flatMap_nil, List.nil_append] at heq
      rw [← heq] at hr'
      exact absurd hr' (hend a _ has.1)
    | cons b bs =>
      rw [List.forall_mem_cons] at hbs
      rw [List.flatMap_cons, List.append_assoc] at heq
      obtain ⟨rfl, hrest⟩ := h a b _ _ has.1 hbs.1 (hfollow as r has.2 hr)
        (hfollow bs r' hbs.2 hr') heq
      obtain ⟨rfl, hr⟩ := ih bs r r' has.2 hbs.2 hr hr' hrest
      exact ⟨rfl, hr⟩

/-- A piece that may be missing. -/
theorem option (h : Cancels P E piece)
    (hend : ∀ a r, P a → ¬ E (piece a ++ r)) :
    Cancels (fun o => ∀ a ∈ o, P a) E
      (fun o : Option α => o.toList.flatMap piece) := by
  intro o o' r r' ho ho' hr hr' heq
  cases o with
  | none =>
    cases o' with
    | none => exact ⟨rfl, heq⟩
    | some b =>
      simp only [Option.toList_none, List.flatMap_nil, List.nil_append,
        Option.toList_some, List.flatMap_singleton] at heq
      rw [heq] at hr
      exact absurd hr (hend b r' (ho' b rfl))
  | some a =>
    cases o' with
    | none =>
      simp only [Option.toList_none, List.flatMap_nil, List.nil_append,
        Option.toList_some, List.flatMap_singleton] at heq
      rw [← heq] at hr'
      exact absurd hr' (hend a r (ho a rfl))
    | some b =>
      simp only [Option.toList_some, List.flatMap_singleton] at heq
      obtain ⟨rfl, hr⟩ := h a b r r' (ho a rfl) (ho' b rfl) hr hr' heq
      exact ⟨rfl, hr⟩

end Cancels

/-! ## Words and values -/

theorem cancels_word :
    Cancels (fun w => isWord w.toList) EndsWord String.toList := by
  intro w w' r r' hw hw' hr hr' heq
  have hword : w.toList = w'.toList := by
    rw [← Lexeme.takeWhile_append_of_endsWord
      (Lexeme.isWordPart_of_isWord hw) hr, heq,
      Lexeme.takeWhile_append_of_endsWord (Lexeme.isWordPart_of_isWord hw') hr']
  rw [hword] at heq
  exact ⟨String.toList_inj.mp hword, List.append_cancel_left heq⟩

/-- Words do not start with a character that ends them. -/
theorem head?_word {w : String} (hw : isWord w.toList) (r : List Char)
    {c : Char} (hc : isWordPart c = false) :
    (w.toList ++ r).head? ≠ some c := by
  intro hhead
  have hparts := Lexeme.isWordPart_of_isWord hw
  cases hw' : w.toList with
  | nil =>
    rw [hw'] at hw
    cases hw
  | cons d ds =>
    rw [hw'] at hhead hparts
    cases hhead
    rw [hparts c List.mem_cons_self] at hc
    cases hc

/-- The content of a literal ends at the quote, where a reader stops. -/
theorem cancels_content : Cancels (fun _ => True)
    (fun r => r.head? = some '"')
    (fun content => (escape content).toList) := by
  intro content content' r r' _ _ hr hr' heq
  obtain ⟨rest, rfl⟩ := List.head?_eq_some_iff.mp hr
  obtain ⟨rest', rfl⟩ := List.head?_eq_some_iff.mp hr'
  have hread := congrArg readLiteral heq
  rw [readLiteral_escape, readLiteral_escape, Option.some.injEq,
    Prod.mk.injEq] at hread
  exact ⟨String.toList_inj.mp hread.1, congrArg ('"' :: ·) hread.2⟩

/-- Is the name, if the value is one, a word? -/
def Value.Named : Value → Prop
  | text _ => True
  | name n => isWord n.toList

/-- A value starts with a quote or like a word. -/
theorem Value.head?_source {v : Value} (hv : v.Named) (r : List Char)
    {c : Char} (hc : isWordPart c = false) (hquote : c ≠ '"') :
    (v.source.toList ++ r).head? ≠ some c := by
  cases v with
  | text content =>
    intro hhead
    simp only [source, String.toList_append, List.append_assoc] at hhead
    exact hquote (Option.some.inj hhead).symm
  | name n => exact head?_word hv r hc

theorem cancels_value :
    Cancels Value.Named EndsWord (fun v => v.source.toList) := by
  intro v v' r r' hv hv' hr hr' heq
  cases v with
  | text content =>
    rw [Value.toList_source_text] at heq
    cases v' with
    | text content' =>
      rw [Value.toList_source_text, List.cons.injEq] at heq
      obtain ⟨rfl, hrest⟩ := cancels_content _ _ _ _ trivial trivial
        (by rfl) (by rfl) heq.2
      exact ⟨rfl, (List.cons.inj hrest).2⟩
    | name n' =>
      exact absurd (congrArg List.head? heq).symm
        (head?_word hv' r' Lexeme.isWordPart_quote)
  | name n =>
    cases v' with
    | text content' =>
      rw [Value.toList_source_text] at heq
      exact absurd (congrArg List.head? heq)
        (head?_word hv r Lexeme.isWordPart_quote)
    | name n' =>
      obtain ⟨rfl, hrest⟩ := cancels_word n n' r r' hv hv' hr hr' heq
      exact ⟨rfl, hrest⟩

/-! ## Printed items -/

/-- What follows `std::cout`: the values and, as `none`, the line end. -/
def printItems (values : List Value) (lineEnd : Bool) : List (Option Value) :=
  values.map some ++ if lineEnd then [none] else []

theorem printItems_inj {values values' : List Value} {lineEnd lineEnd' : Bool}
    (h : printItems values lineEnd = printItems values' lineEnd') :
    values = values' ∧ lineEnd = lineEnd' := by
  have hvalues : ∀ values lineEnd,
      (printItems values lineEnd).filterMap id = values := by
    intro values lineEnd
    cases lineEnd <;> simp [printItems]
  have hlineEnd : ∀ values lineEnd,
      none ∈ printItems values lineEnd ↔ lineEnd = true := by
    intro values lineEnd
    cases lineEnd <;> simp [printItems]
  constructor
  · rw [← hvalues values lineEnd, h, hvalues]
  · rw [Bool.eq_iff_iff, ← hlineEnd values, h, hlineEnd]

/-- An item, as it is written. -/
def itemSource : Option Value → List Char
  | some v => ' ' :: '<' :: '<' :: ' ' :: v.source.toList
  | none => ' ' :: '<' :: '<' :: ' ' :: ("std".toList ++ "::endl".toList)

theorem cancels_item : Cancels (fun item => ∀ v ∈ item, v.Named)
    (fun r => r.head? = some ' ' ∨ r.head? = some ';') itemSource := by
  have hends : ∀ r : List Char, r.head? = some ' ' ∨ r.head? = some ';' →
      EndsWord r := by
    rintro r (hr | hr)
    · exact Lexeme.endsWord_of_head? hr (by decide)
    · exact Lexeme.endsWord_of_head? hr (by decide)
  -- the line end is no value: the word `std` is not followed by a colon
  have hline : ∀ (v : Value) (r r' : List Char), v.Named →
      r.head? = some ' ' ∨ r.head? = some ';' →
      v.source.toList ++ r ≠ ("std".toList ++ "::endl".toList) ++ r' := by
    intro v r r' hv hr heq
    have hstd : (Value.name "std").Named :=
      show isWord "std".toList by decide
    rw [List.append_assoc] at heq
    obtain ⟨-, hrest⟩ := cancels_value v (.name "std") r
      ("::endl".toList ++ r') hv hstd (hends r hr)
      (Lexeme.endsWord_of_head? (c := ':') rfl (by decide)) heq
    rw [hrest] at hr
    rcases hr with hr | hr <;> cases hr
  intro item item' r r' hitem hitem' hr hr' heq
  cases item with
  | none =>
    cases item' with
    | none => exact ⟨rfl, List.append_cancel_left heq⟩
    | some v' =>
      simp only [itemSource, List.cons_append, List.cons.injEq, true_and]
        at heq
      exact absurd heq.symm (hline v' r' r (hitem' v' rfl) hr')
  | some v =>
    cases item' with
    | none =>
      simp only [itemSource, List.cons_append, List.cons.injEq, true_and]
        at heq
      exact absurd heq (hline v r r' (hitem v rfl) hr)
    | some v' =>
      simp only [itemSource, List.cons_append, List.cons.injEq, true_and]
        at heq
      obtain ⟨rfl, hrest⟩ := cancels_value v v' r r' (hitem v rfl)
        (hitem' v' rfl) (hends r hr) (hends r' hr') heq
      exact ⟨rfl, hrest⟩

theorem cancels_items : Cancels (fun items => ∀ item ∈ items, ∀ v ∈ item,
    v.Named) (fun r => r.head? = some ';') (List.flatMap itemSource) := by
  apply cancels_item.flatMap
  · intro item r _
    cases item <;> exact .inl rfl
  · intro r hr
    exact .inr hr
  · intro item r _ hr
    cases item <;> cases hr

/-! ## Lines in a definition -/

/-- A line in a definition, without the blanks before it: a word, the
    character after it, and the rest. -/
structure CodeLine where
  word : String
  mark : Char
  rest : List Char

namespace CodeLine

/-- The characters of the line. -/
def chars (l : CodeLine) : List Char :=
  l.word.toList ++ l.mark :: l.rest

/-- The word is one, and the character after it is not part of it. -/
def Named (l : CodeLine) : Prop :=
  isWord l.word.toList ∧ isWordPart l.mark = false

theorem cancel {l l' : CodeLine} {r r' : List Char} (hl : l.Named)
    (hl' : l'.Named) (heq : l.chars ++ r = l'.chars ++ r') :
    l.word = l'.word ∧ l.mark = l'.mark ∧ l.rest ++ r = l'.rest ++ r' := by
  simp only [chars, List.append_assoc, List.cons_append] at heq
  obtain ⟨hword, hrest⟩ := cancels_word _ _ _ _ hl.1 hl'.1
    (Lexeme.endsWord_cons hl.2 _) (Lexeme.endsWord_cons hl'.2 _) heq
  exact ⟨hword, List.cons.inj hrest⟩

end CodeLine

namespace Statement

/-- The line of a statement that is no definition. -/
def line? : Statement → Option CodeLine
  | print values lineEnd => some
    { word := "std", mark := ':'
      rest := ":cout".toList ++
        ((printItems values lineEnd).flatMap itemSource ++ [';']) }
  | declareZero name => some
    { word := "auto", mark := ' ', rest := name.toList ++ " = 0;".toList }
  | call callee argument => some
    { word := callee, mark := '('
      rest := argument.toList.flatMap (fun v => v.source.toList) ++
        ");".toList }
  | function .. | main _ => none

/-- The last line of `main`. -/
def returnLine : CodeLine :=
  { word := "return", mark := ' ', rest := "0;".toList }

end Statement

/-- The characters of lines, each with its line feed. -/
def chars (ls : List String) : List Char :=
  ls.flatMap fun l => l.toList ++ ['\n']

@[simp] theorem chars_nil : chars [] = [] := rfl

@[simp] theorem chars_cons (l : String) (ls : List String) :
    chars (l :: ls) = l.toList ++ '\n' :: chars ls := by
  simp [chars]

@[simp] theorem chars_append (ls ls' : List String) :
    chars (ls ++ ls') = chars ls ++ chars ls' := by
  simp [chars]

theorem Statement.chars_lines_of_line? {s : Statement} {l : CodeLine}
    (h : s.line? = some l) (depth : Nat) :
    Target.chars (s.lines depth) =
      (indent depth).toList ++ (l.chars ++ ['\n']) := by
  cases s with
  | print values lineEnd =>
    cases h
    cases lineEnd <;>
      simp [lines, CodeLine.chars, printItems, itemSource, List.flatMap_map]
  | declareZero name =>
    cases h
    simp [lines, CodeLine.chars]
  | call callee argument =>
    cases h
    cases argument <;> simp [lines, CodeLine.chars]
  | function name parameter body => cases h
  | main body => cases h

namespace Statement

mutual

/-- Are all names in the statement words? -/
def Named : Statement → Prop
  | print values _ => ∀ v ∈ values, v.Named
  | declareZero name => isWord name.toList
  | call callee argument => isWord callee.toList ∧ ∀ v ∈ argument, v.Named
  | function name parameter body =>
    isWord name.toList ∧ (∀ p ∈ parameter, isWord p.toList) ∧ NamedAll body
  | main body => NamedAll body

/-- Are all names in the statements words? -/
def NamedAll : List Statement → Prop
  | [] => True
  | s :: rest => s.Named ∧ NamedAll rest

end

theorem Named.line? {s : Statement} {l : CodeLine} (hs : s.Named)
    (h : s.line? = some l) : l.Named := by
  cases s with
  | print values lineEnd =>
    cases h
    exact ⟨show isWord "std".toList by decide,
      show isWordPart ':' = false by decide⟩
  | declareZero name =>
    cases h
    exact ⟨show isWord "auto".toList by decide,
      show isWordPart ' ' = false by decide⟩
  | call callee argument =>
    cases h
    exact ⟨hs.1, show isWordPart '(' = false by decide⟩
  | function name parameter body => cases h
  | main body => cases h

theorem cancels_argument :
    Cancels (fun argument => ∀ v ∈ argument, v.Named)
      (fun r => r.head? = some ')')
      (fun o : Option Value => o.toList.flatMap fun v => v.source.toList) := by
  have hvalue : Cancels Value.Named (fun r => r.head? = some ')')
      (fun v => v.source.toList) :=
    cancels_value.weaken fun r hr =>
      Lexeme.endsWord_of_head? hr (by decide)
  exact hvalue.option fun v r hv =>
    Value.head?_source hv r (by decide) (by decide)

theorem cancel_print {values values' : List Value} {lineEnd lineEnd' : Bool}
    {r r' : List Char} (h : ∀ v ∈ values, v.Named)
    (h' : ∀ v ∈ values', v.Named)
    (heq : (printItems values lineEnd).flatMap itemSource ++ ';' :: r =
      (printItems values' lineEnd').flatMap itemSource ++ ';' :: r') :
    values = values' ∧ lineEnd = lineEnd' ∧ r = r' := by
  have hnamed : ∀ values lineEnd, (∀ v ∈ values, v.Named) →
      ∀ item ∈ printItems values lineEnd, ∀ v ∈ item, v.Named := by
    intro values lineEnd hvalues item hitem v hv
    rw [Option.mem_def] at hv
    rw [hv] at hitem
    cases lineEnd <;> exact hvalues v (by simpa [printItems] using hitem)
  obtain ⟨hitems, hrest⟩ := cancels_items _ _ _ _ (hnamed _ _ h)
    (hnamed _ _ h') (by rfl) (by rfl) heq
  obtain ⟨hvalues, hlineEnd⟩ := printItems_inj hitems
  exact ⟨hvalues, hlineEnd, (List.cons.inj hrest).2⟩

/-- The character after the first word tells the kinds of lines apart. -/
theorem cancel_line {s s' : Statement} {l l' : CodeLine} {r r' : List Char}
    (hs : s.Named) (hs' : s'.Named) (h : s.line? = some l)
    (h' : s'.line? = some l')
    (heq : l.chars ++ '\n' :: r = l'.chars ++ '\n' :: r') :
    s = s' ∧ r = r' := by
  obtain ⟨hword, hmark, hrest⟩ :=
    CodeLine.cancel (hs.line? h) (hs'.line? h') heq
  cases s with
  | print values lineEnd =>
    cases h
    cases s' with
    | print values' lineEnd' =>
      cases h'
      simp only [List.append_assoc, List.append_cancel_left_eq,
        List.singleton_append] at hrest
      obtain ⟨rfl, rfl, hr⟩ := cancel_print hs hs' hrest
      exact ⟨rfl, (List.cons.inj hr).2⟩
    | _ => cases h' <;> cases hmark
  | declareZero name =>
    cases h
    cases s' with
    | declareZero name' =>
      cases h'
      simp only [List.append_assoc] at hrest
      have hends : ∀ x, EndsWord (" = 0;".toList ++ x) :=
        fun x => Lexeme.endsWord_of_head? (c := ' ') rfl (by decide)
      obtain ⟨rfl, hr⟩ := cancels_word _ _ _ _ hs hs' (hends _) (hends _) hrest
      have hr := List.append_cancel_left hr
      exact ⟨rfl, (List.cons.inj hr).2⟩
    | _ => cases h' <;> cases hmark
  | call callee argument =>
    cases h
    cases s' with
    | call callee' argument' =>
      cases h'
      simp only [List.append_assoc] at hrest
      obtain ⟨rfl, hr⟩ := cancels_argument _ _ _ _ hs.2 hs'.2 (by rfl)
        (by rfl) hrest
      have hr := List.append_cancel_left hr
      cases hword
      exact ⟨rfl, (List.cons.inj hr).2⟩
    | _ => cases h' <;> cases hmark
  | function name parameter body => cases h
  | main body => cases h

/-! ## Definitions -/

/-- The first character of a statement inside a definition. -/
def firstChar : Statement → Char
  | print .. | declareZero _ | call .. => ' '
  | function .. => 'v'
  | main _ => 'i'

theorem head?_indent (depth : Nat) (r : List Char) :
    ((indent (depth + 1)).toList ++ r).head? = some ' ' := by
  have : 4 * (depth + 1) = 4 * depth + 3 + 1 := by omega
  simp [indent, this, List.replicate_succ]

theorem line?_of_firstChar {s : Statement} (h : s.firstChar = ' ') :
    ∃ l, s.line? = some l := by
  cases s with
  | print values lineEnd => exact ⟨_, rfl⟩
  | declareZero name => exact ⟨_, rfl⟩
  | call callee argument => exact ⟨_, rfl⟩
  | function name parameter body => cases h
  | main body => cases h

theorem chars_function (name : String) (parameter : Option String)
    (body : List Statement) (depth : Nat) :
    chars ((function name parameter body).lines depth) =
      "void ".toList ++ (name.toList ++ '(' ::
        (parameter.toList.flatMap (fun p => "auto ".toList ++ p.toList) ++
          (") \x7b\n".toList ++
            (chars (linesOf (depth + 1) body) ++ "\x7d\n".toList)))) := by
  cases parameter <;> simp [lines, functionHead, closing]

theorem chars_main (body : List Statement) (depth : Nat) :
    chars ((main body).lines depth) =
      chars mainHead ++ (chars (linesOf (depth + 1) body) ++
        ((indent (depth + 1)).toList ++
          (returnLine.chars ++ "\n\x7d\n".toList))) := by
  simp [lines, closing, returnLine, CodeLine.chars]

theorem head?_chars_lines (s : Statement) (depth : Nat) (r : List Char) :
    (chars (s.lines (depth + 1)) ++ r).head? = some s.firstChar := by
  have hline : ∀ l, s.line? = some l →
      (chars (s.lines (depth + 1)) ++ r).head? = some ' ' := by
    intro l hl
    rw [chars_lines_of_line? hl, List.append_assoc]
    exact head?_indent depth _
  cases s with
  | print values lineEnd => exact hline _ rfl
  | declareZero name => exact hline _ rfl
  | call callee argument => exact hline _ rfl
  | function name parameter body =>
    rw [chars_function]
    rfl
  | main body =>
    rw [chars_main]
    rfl

/-- The text goes on with the end of a definition, at the given depth. -/
def Ends (depth : Nat) (r : List Char) : Prop :=
  r.head? = some '\x7d' ∨
    ∃ x, r = (indent depth).toList ++ (returnLine.chars ++ x)

/-- No statement looks like the end of a definition. -/
theorem not_ends {s : Statement} (hs : s.Named) (depth : Nat)
    (r : List Char) :
    ¬ Ends (depth + 1) (chars (s.lines (depth + 1)) ++ r) := by
  have hhead := head?_chars_lines s depth r
  rintro (hclosing | ⟨x, hx⟩)
  · rw [hhead] at hclosing
    cases s <;> cases hclosing
  · -- only a line of code has blanks before it, and none is `return 0;`
    have hblank : s.firstChar = ' ' := by
      rw [hx, head?_indent] at hhead
      exact (Option.some.inj hhead).symm
    obtain ⟨l, hl⟩ := line?_of_firstChar hblank
    rw [chars_lines_of_line? hl, List.append_assoc, List.append_assoc] at hx
    have hreturn : returnLine.Named :=
      ⟨show isWord "return".toList by decide,
        show isWordPart ' ' = false by decide⟩
    obtain ⟨hword, hmark, -⟩ := CodeLine.cancel (hs.line? hl) hreturn
      (List.append_cancel_left hx)
    cases s with
    | print values lineEnd => cases hl; cases hmark
    | declareZero name =>
      cases hl
      exact absurd hword (show "auto" ≠ "return" by decide)
    | call callee argument => cases hl; cases hmark
    | function name parameter body => cases hl
    | main body => cases hl

theorem cancels_parameter :
    Cancels (fun parameter => ∀ p ∈ parameter, isWord p.toList)
      (fun r => r.head? = some ')')
      (fun o : Option String =>
        o.toList.flatMap fun p => "auto ".toList ++ p.toList) := by
  have hname : Cancels (fun p : String => isWord p.toList)
      (fun r => r.head? = some ')')
      (fun p => "auto ".toList ++ p.toList) := by
    intro p p' r r' hp hp' hr hr' heq
    simp only [List.append_assoc] at heq
    exact cancels_word p p' r r' hp hp'
      (Lexeme.endsWord_of_head? hr (by decide))
      (Lexeme.endsWord_of_head? hr' (by decide))
      (List.append_cancel_left heq)
  exact hname.option fun p r _ hr => by cases hr

/-- Two bodies can be told apart at the given depth. -/
def BodiesCancel (depth : Nat) (body body' : List Statement) : Prop :=
  ∀ r r', Ends depth r → Ends depth r' →
    chars (linesOf depth body) ++ r = chars (linesOf depth body') ++ r' →
    body = body' ∧ r = r'

theorem cancel_function {name name' : String}
    {parameter parameter' : Option String} {body body' : List Statement}
    {depth : Nat} {r r' : List Char}
    (h : (function name parameter body).Named)
    (h' : (function name' parameter' body').Named)
    (hbody : BodiesCancel (depth + 1) body body')
    (heq : chars ((function name parameter body).lines depth) ++ r =
      chars ((function name' parameter' body').lines depth) ++ r') :
    function name parameter body = function name' parameter' body' ∧
      r = r' := by
  simp only [chars_function, List.append_assoc, List.cons_append] at heq
  obtain ⟨rfl, hparen⟩ := cancels_word _ _ _ _ h.1 h'.1
    (Lexeme.endsWord_cons (by decide) _) (Lexeme.endsWord_cons (by decide) _)
    (List.append_cancel_left heq)
  -- the name ends at the parenthesis, the parameter at the next one
  have hparameter := (List.cons.inj hparen).2
  obtain ⟨rfl, hbrace⟩ := cancels_parameter _ _ _ _ h.2.1 h'.2.1 (by rfl)
    (by rfl) hparameter
  have hlines := List.append_cancel_left hbrace
  obtain ⟨rfl, hend⟩ := hbody _ _ (.inl (by rfl)) (.inl (by rfl)) hlines
  exact ⟨rfl, List.append_cancel_left hend⟩

theorem cancel_main {body body' : List Statement} {depth : Nat}
    {r r' : List Char} (hbody : BodiesCancel (depth + 1) body body')
    (heq : chars ((main body).lines depth) ++ r =
      chars ((main body').lines depth) ++ r') :
    main body = main body' ∧ r = r' := by
  simp only [chars_main, List.append_assoc] at heq
  obtain ⟨rfl, hend⟩ := hbody _ _ (.inr ⟨_, rfl⟩) (.inr ⟨_, rfl⟩)
    (List.append_cancel_left heq)
  simp only [List.append_cancel_left_eq] at hend
  exact ⟨rfl, hend⟩

/-- The body of a definition. -/
def body? : Statement → Option (List Statement)
  | function _ _ body => some body
  | main body => some body
  | print .. | declareZero _ | call .. => none

/-- Two statements in a definition can be told apart if the first one has no
    body or its body can be told apart from others. -/
theorem cancel_of_body {s s' : Statement} {depth : Nat} {r r' : List Char}
    (hs : s.Named) (hs' : s'.Named)
    (hbody : ∀ body ∈ s.body?, ∀ body', NamedAll body → NamedAll body' →
      BodiesCancel (depth + 2) body body')
    (heq : chars (s.lines (depth + 1)) ++ r =
      chars (s'.lines (depth + 1)) ++ r') : s = s' ∧ r = r' := by
  -- the first character tells definitions and lines of code apart
  have hfirst : s.firstChar = s'.firstChar := by
    have := congrArg List.head? heq
    rw [head?_chars_lines, head?_chars_lines] at this
    exact Option.some.inj this
  have hline : s.firstChar = ' ' → s = s' ∧ r = r' := by
    intro hblank
    obtain ⟨l, hl⟩ := line?_of_firstChar hblank
    obtain ⟨l', hl'⟩ := line?_of_firstChar (hfirst.symm.trans hblank)
    rw [chars_lines_of_line? hl, chars_lines_of_line? hl'] at heq
    simp only [List.append_assoc] at heq
    exact cancel_line hs hs' hl hl' (List.append_cancel_left heq)
  cases s with
  | print values lineEnd => exact hline rfl
  | declareZero name => exact hline rfl
  | call callee argument => exact hline rfl
  | function name parameter body =>
    cases s' with
    | function name' parameter' body' =>
      exact cancel_function hs hs' (hbody body rfl body' hs.2.2 hs'.2.2) heq
    | _ => cases hfirst
  | main body =>
    cases s' with
    | main body' => exact cancel_main (hbody body rfl body' hs hs') heq
    | _ => cases hfirst

mutual

theorem bodiesCancel_body : ∀ (s : Statement) (depth : Nat),
    ∀ body ∈ s.body?, ∀ body', NamedAll body → NamedAll body' →
      BodiesCancel (depth + 1) body body'
  | function _ _ body, depth, _, rfl, body' => bodiesCancel body body' depth
  | main body, depth, _, rfl, body' => bodiesCancel body body' depth

theorem bodiesCancel : ∀ (ss ss' : List Statement) (depth : Nat),
    NamedAll ss → NamedAll ss' → BodiesCancel (depth + 1) ss ss'
  | [], [], _, _, _ => fun _ _ _ _ heq => ⟨rfl, heq⟩
  | [], s' :: rest', depth, _, hss' => by
    intro r r' hr _ heq
    simp only [linesOf, chars_nil, List.nil_append, chars_append,
      List.append_assoc] at heq
    rw [heq] at hr
    exact absurd hr (not_ends hss'.1 depth _)
  | s :: rest, [], depth, hss, _ => by
    intro r r' _ hr' heq
    simp only [linesOf, chars_nil, List.nil_append, chars_append,
      List.append_assoc] at heq
    rw [← heq] at hr'
    exact absurd hr' (not_ends hss.1 depth _)
  | s :: rest, s' :: rest', depth, hss, hss' => by
    intro r r' hr hr' heq
    simp only [linesOf, chars_append, List.append_assoc] at heq
    obtain ⟨rfl, hrest⟩ := cancel_of_body hss.1 hss'.1
      (bodiesCancel_body s (depth + 1)) heq
    obtain ⟨rfl, hend⟩ := bodiesCancel rest rest' depth hss.2 hss'.2 r r' hr
      hr' hrest
    exact ⟨rfl, hend⟩

end

end Statement

/-! ## Source files -/

/-- Are all names in the source file words? -/
def Module.Named (m : Module) : Prop :=
  (∀ f ∈ m.functions,
    (Statement.function f.name f.parameter f.body).Named) ∧
  ∀ e ∈ m.entryPoints, (Statement.main e.body).Named

theorem cancels_function :
    Cancels (fun f => (Statement.function f.name f.parameter f.body).Named)
      (fun _ => True) (fun f : Function => chars (f.lines ++ [""])) := by
  intro f f' r r' hf hf' _ _ heq
  simp only [chars_append, Function.lines, List.append_assoc] at heq
  obtain ⟨hsame, hrest⟩ := Statement.cancel_function hf hf'
    (Statement.bodiesCancel _ _ 0 hf.2.2 hf'.2.2) heq
  simp only [Statement.function.injEq] at hsame
  obtain ⟨hname, hparameter, hbody⟩ := hsame
  refine ⟨?_, List.append_cancel_left hrest⟩
  cases f
  cases f'
  simp_all

theorem cancels_entryPoint :
    Cancels (fun e => (Statement.main e.body).Named) (fun _ => True)
      (fun e : EntryPoint => chars (e.lines ++ [""])) := by
  intro e e' r r' he he' _ _ heq
  simp only [chars_append, EntryPoint.lines, List.append_assoc] at heq
  obtain ⟨hsame, hrest⟩ := Statement.cancel_main
    (Statement.bodiesCancel _ _ 0 he he') heq
  simp only [Statement.main.injEq] at hsame
  refine ⟨?_, List.append_cancel_left hrest⟩
  cases e
  cases e'
  simp_all

/-- The text of a source file determines the file. -/
theorem Module.eq_of_text_eq {m m' : Module} (h : m.Named) (h' : m'.Named)
    (heq : m.text = m'.text) : m = m' := by
  have hchars : ∀ m : Module, m.text.toList = chars preamble ++
      (m.functions.flatMap (fun f => chars (f.lines ++ [""])) ++
        m.entryPoints.flatMap (fun e => chars (e.lines ++ [""]))) := by
    intro m
    rw [text, Text.toList_unlines]
    simp [lines, chars, List.flatMap_assoc]
  -- the functions end where a `main` starts, or the file does
  have hfunctions : Cancels _ (fun r => r.head? ≠ some 'v')
      (List.flatMap fun f : Function => chars (f.lines ++ [""])) :=
    cancels_function.flatMap (fun _ _ _ => trivial) (fun _ _ => trivial)
      (by
        intro f r _ hr
        rw [Function.lines, chars_append, Statement.chars_function] at hr
        exact hr rfl)
  have hentryPoints : Cancels _ (fun r => r = [])
      (List.flatMap fun e : EntryPoint => chars (e.lines ++ [""])) :=
    cancels_entryPoint.flatMap (fun _ _ _ => trivial) (fun _ _ => trivial)
      (by
        intro e r _ hr
        simp [EntryPoint.lines] at hr)
  have hnext : ∀ es : List EntryPoint,
      (es.flatMap fun e => chars (e.lines ++ [""])).head? ≠ some 'v' := by
    intro es
    cases es with
    | nil => simp
    | cons e es =>
      rw [List.flatMap_cons, EntryPoint.lines, chars_append,
        Statement.chars_main]
      intro hv
      cases hv
  have htext := congrArg String.toList heq
  rw [hchars, hchars] at htext
  obtain ⟨hf, hrest⟩ := hfunctions _ _ _ _ h.1 h'.1 (hnext _) (hnext _)
    (List.append_cancel_left htext)
  obtain ⟨he, -⟩ := hentryPoints _ _ [] [] h.2 h'.2 rfl rfl
    (by simpa using hrest)
  cases m
  cases m'
  simp_all

end SayScript.Target
