import SayScript.Proofs.Lowering
import SayScript.Proofs.Normalizing

/-! # How C++ text is laid out

    The text of a source file is read line by line.  A line that ends in an
    opening brace goes one deeper, a closing brace alone on its line comes
    back, and the depth of a line is what is open before it.  Definitions and
    closing braces stand in the first column at every depth; it is the
    statements that show the depth, four blanks for each level.

    `Leads d line e` says what one line at depth `d` can be and which depth
    `e` it leads to, and `Laid d ls e` does so for lines one after the
    other.  The lines of a statement inside a definition come back to the
    depth they start at, whatever is nested in them.

    Braces, semicolons and quotes in a literal do not matter here: a line of
    code ends after its last literal, and a scan of the line is outside all
    literals there. -/

namespace SayScript.Target

open Lexeme (isWord isWordPart)

/-! ## Braces -/

/-- Does the line end in an opening brace, after a blank? -/
def opens (line : List Char) : Bool :=
  [' ', '\x7b'].isSuffixOf line

/-- Is the line a closing brace? -/
def closes (line : List Char) : Bool :=
  line = ['\x7d']

/-- The depth after the lines: how many of them open, less how many close. -/
def depth (ls : List (List Char)) : Int :=
  ls.countP opens - ls.countP closes

/-! ## Literals -/

/-- Where a scan of C++ text can be. -/
inductive Place where
  /-- Outside all string literals. -/
  | code
  /-- In a string literal. -/
  | literal
  /-- In a string literal, after a backslash. -/
  | escaped
  deriving DecidableEq, Repr

/-- Where the scan is after one more character.  A backslash in a literal
    takes away the meaning of the character after it. -/
def Place.next : Place → Char → Place
  | code, c => if c = '"' then literal else code
  | literal, c =>
    if c = '"' then code else if c = '\\' then escaped else literal
  | escaped, _ => literal

/-- Does the text close each string literal that it opens? -/
def closesLiterals (cs : List Char) : Bool :=
  cs.foldl Place.next .code = .code

/-! ## Lines -/

/-- What a line at the given depth can be. -/
inductive IsLine (depth : Int) (line : List Char) : Prop where
  | preprocessor : line.head? = some '#' → IsLine depth line
  | blank : line = [] → IsLine depth line
  /-- The line that tells the console which encoding to expect. -/
  | console : line = "SetConsoleOutputCP(CP_UTF8);".toList →
      IsLine depth line
  /-- The head of a definition, in the first column. -/
  | head {c : Char} : line.head? = some c → Text.isBlank c = false →
      opens line → IsLine depth line
  | closing : closes line → IsLine depth line
  /-- A statement, with four blanks in front for each level. -/
  | statement {n : Nat} {c : Char} {rest : List Char} :
      depth = n → 1 ≤ n → line = List.replicate (4 * n) ' ' ++ c :: rest →
      c ≠ ' ' → line.getLast? = some ';' → IsLine depth line

/-- The line stands at depth `d` and leads to depth `e`. -/
inductive Leads : Nat → List Char → Nat → Prop where
  | flat {d : Nat} {line : List Char} : opens line = false →
      closes line = false → IsLine d line → closesLiterals line →
      Leads d line d
  | head {d : Nat} {line : List Char} {c : Char} : line.head? = some c →
      Text.isBlank c = false → opens line → closesLiterals line →
      Leads d line (d + 1)
  | closing (d : Nat) : Leads (d + 1) ['\x7d'] d

/-- The lines lead from depth `d` to depth `e`. -/
inductive Laid : Nat → List (List Char) → Nat → Prop where
  | nil (d : Nat) : Laid d [] d
  | cons {d e f : Nat} {line : List Char} {ls : List (List Char)} :
      Leads d line e → Laid e ls f → Laid d (line :: ls) f

section Lines

variable {d e f : Nat} {line : List Char} {ls ls' : List (List Char)}

theorem Leads.isLine (h : Leads d line e) : IsLine d line := by
  cases h with
  | flat _ _ hline _ => exact hline
  | head hc hblank hopens _ => exact .head hc hblank hopens
  | closing _ => exact .closing rfl

theorem Leads.closesLiterals (h : Leads d line e) : closesLiterals line := by
  cases h with
  | flat _ _ _ hcloses => exact hcloses
  | head _ _ _ hcloses => exact hcloses
  | closing _ => rfl

theorem depth_append (ls ls' : List (List Char)) :
    depth (ls ++ ls') = depth ls + depth ls' := by
  simp only [depth, List.countP_append]
  omega

/-- One line changes the depth by what it opens and closes. -/
theorem Leads.depth_eq (h : Leads d line e) :
    (e : Int) = d + depth [line] := by
  have hline : depth [line] =
      (if opens line then 1 else 0) - (if closes line then 1 else 0) := by
    simp only [depth, List.countP_singleton]
    split <;> split <;> rfl
  rw [hline]
  cases h with
  | flat hopens hcloses _ _ =>
    rw [hopens, hcloses]
    simp only [Bool.false_eq_true, if_false]
    omega
  | head _ _ hopens _ =>
    -- a line that opens is not a brace alone
    have hcloses : closes line = false := by
      rw [closes, decide_eq_false_iff_not]
      rintro rfl
      revert hopens
      decide
    rw [hopens, hcloses]
    simp only [Bool.false_eq_true, if_true, if_false]
    omega
  | closing _ =>
    rw [show opens ['\x7d'] = false by decide,
      show closes ['\x7d'] = true by decide]
    simp only [Bool.false_eq_true, if_true, if_false]
    omega

theorem Laid.single (h : Leads d line e) : Laid d [line] e :=
  .cons h (.nil e)

theorem Laid.append (h : Laid d ls e) (h' : Laid e ls' f) :
    Laid d (ls ++ ls') f := by
  induction h with
  | nil d => exact h'
  | cons hline _ ih => exact .cons hline (ih h')

theorem Laid.flatMap {α : Type} {as : List α} {g : α → List (List Char)}
    (h : ∀ a ∈ as, Laid d (g a) d) : Laid d (as.flatMap g) d := by
  induction as with
  | nil => exact .nil d
  | cons a as ih =>
    rw [List.flatMap_cons]
    rw [List.forall_mem_cons] at h
    exact h.1.append (ih h.2)

/-- Is the line a preprocessor line, blank, or the one for the console? -/
def isFixed (line : List Char) : Bool :=
  !opens line && !closes line && closesLiterals line &&
    (line.head? = some '#' || line = [] ||
      line = "SetConsoleOutputCP(CP_UTF8);".toList)

/-- Fixed lines can stand at every depth. -/
theorem Laid.ofFixed (h : ls.all isFixed) (d : Nat) : Laid d ls d := by
  induction ls with
  | nil => exact .nil d
  | cons line ls ih =>
    rw [List.all_cons, Bool.and_eq_true] at h
    obtain ⟨hline, hls⟩ := h
    simp only [isFixed, Bool.and_eq_true, Bool.or_eq_true, Bool.not_eq_true',
      decide_eq_true_eq] at hline
    obtain ⟨⟨⟨hopens, hcloses⟩, hliterals⟩, (hpre | hblank) | hconsole⟩ := hline
    · exact .cons (.flat hopens hcloses (.preprocessor hpre) hliterals) (ih hls)
    · exact .cons (.flat hopens hcloses (.blank hblank) hliterals) (ih hls)
    · exact .cons (.flat hopens hcloses (.console hconsole) hliterals) (ih hls)

/-- Lines together change the depth by what they open and close. -/
theorem Laid.depth_eq (h : Laid d ls e) : (e : Int) = d + depth ls := by
  induction h with
  | nil d => simp [depth]
  | @cons d e f line ls hline _ ih =>
    have hfirst := hline.depth_eq
    have hboth := depth_append [line] ls
    rw [List.singleton_append] at hboth
    omega

/-- Lines can be cut anywhere. -/
theorem Laid.cut (h : Laid d ls e) (i : Nat) :
    ∃ m, Laid d (ls.take i) m ∧ Laid m (ls.drop i) e := by
  induction h generalizing i with
  | nil d => exact ⟨d, by simpa using Laid.nil d, by simpa using Laid.nil d⟩
  | @cons d e f line ls hline hrest ih =>
    cases i with
    | zero => exact ⟨d, .nil d, .cons hline hrest⟩
    | succ i =>
      obtain ⟨m, hbefore, hafter⟩ := ih i
      exact ⟨m, .cons hline hbefore, hafter⟩

/-- Of lines that come back to depth 0, each is what it can be at its depth.
    The depth at a place is where a cut there leads to. -/
theorem Laid.lines (h : Laid 0 ls 0) :
    (∀ i, 0 ≤ depth (ls.take i)) ∧ depth ls = 0 ∧
      ∀ i line, ls[i]? = some line →
        IsLine (depth (ls.take i)) line ∧ Target.closesLiterals line := by
  have htotal := h.depth_eq
  refine ⟨?_, by omega, ?_⟩
  · intro i
    obtain ⟨m, hbefore, -⟩ := h.cut i
    have := hbefore.depth_eq
    omega
  · intro i line hline
    obtain ⟨m, hbefore, hafter⟩ := h.cut i
    have hdepth : depth (ls.take i) = m := by
      have := hbefore.depth_eq
      omega
    obtain ⟨hi, rfl⟩ := List.getElem?_eq_some_iff.mp hline
    rw [List.drop_eq_getElem_cons hi] at hafter
    rw [hdepth]
    cases hafter with
    | cons hleads _ => exact ⟨hleads.isLine, hleads.closesLiterals⟩

end Lines

/-! ## Text that closes its literals -/

theorem closesLiterals_append {cs ds : List Char} (h : closesLiterals cs)
    (h' : closesLiterals ds) : closesLiterals (cs ++ ds) := by
  simp only [closesLiterals, decide_eq_true_eq] at h h' ⊢
  rw [List.foldl_append, h, h']

theorem closesLiterals_of_not_mem {cs : List Char} (h : '"' ∉ cs) :
    closesLiterals cs := by
  simp only [closesLiterals, decide_eq_true_eq]
  induction cs with
  | nil => rfl
  | cons c cs ih =>
    rw [List.mem_cons, not_or] at h
    rw [List.foldl_cons, Place.next, if_neg (Ne.symm h.1), ih h.2]

theorem closesLiterals_cons {c : Char} {cs : List Char} (hc : c ≠ '"')
    (h : closesLiterals cs) : closesLiterals (c :: cs) := by
  have hsingle : closesLiterals [c] :=
    closesLiterals_of_not_mem (by simpa using Ne.symm hc)
  exact closesLiterals_append hsingle h

theorem closesLiterals_flatMap {α : Type} {as : List α} {g : α → List Char}
    (h : ∀ a ∈ as, closesLiterals (g a)) : closesLiterals (as.flatMap g) := by
  induction as with
  | nil => rfl
  | cons a as ih =>
    rw [List.flatMap_cons]
    rw [List.forall_mem_cons] at h
    exact closesLiterals_append h.1 (ih h.2)

theorem closesLiterals_of_isWord {cs : List Char} (h : isWord cs) :
    closesLiterals cs := by
  apply closesLiterals_of_not_mem
  intro hquote
  have := Lexeme.isWordPart_of_isWord h '"' hquote
  rw [Lexeme.isWordPart_quote] at this
  cases this

/-- A character as it is written in a literal does not end the literal. -/
theorem foldl_escapeChar (c : Char) :
    (escapeChar c).foldl Place.next .literal = .literal := by
  unfold escapeChar
  split
  · rfl
  · rename_i hc
    rw [not_or] at hc
    simp [Place.next, hc]

theorem closesLiterals_source {v : Value} (hv : v.Named) :
    closesLiterals v.source.toList := by
  cases v with
  | text content =>
    have hcontent : ∀ cs : List Char,
        (cs.flatMap escapeChar).foldl Place.next .literal = .literal := by
      intro cs
      induction cs with
      | nil => rfl
      | cons c cs ih =>
        rw [List.flatMap_cons, List.foldl_append, foldl_escapeChar, ih]
    -- the quotes around it open and close the literal
    simp only [closesLiterals, decide_eq_true_eq, Value.source, escape,
      String.toList_append, String.toList_ofList, List.foldl_append]
    rw [show "\"".toList.foldl Place.next .code = .literal from rfl, hcontent]
    rfl
  | name n => exact closesLiterals_of_isWord hv

/-! ## Lines of code -/

theorem opens_of_getLast? {line : List Char} {c : Char}
    (h : line.getLast? = some c) (hc : c ≠ '\x7b') : opens line = false := by
  obtain ⟨init, rfl⟩ := List.getLast?_eq_some_iff.mp h
  cases hopens : opens (init ++ [c]) with
  | false => rfl
  | true =>
    obtain ⟨before, hbefore⟩ := List.isSuffixOf_iff_suffix.mp hopens
    have hlast := congrArg List.getLast? hbefore
    simp only [List.getLast?_append, List.getLast?_singleton,
      List.getLast?_cons_cons, Option.some_or, Option.some.injEq] at hlast
    exact absurd hlast.symm hc

theorem closes_of_getLast? {line : List Char} {c : Char}
    (h : line.getLast? = some c) (hc : c ≠ '\x7d') : closes line = false := by
  rw [closes, decide_eq_false_iff_not]
  rintro rfl
  exact hc (Option.some.inj h).symm

/-- The line is one statement: it ends in a semicolon and closes each literal
    that it opens. -/
structure CodeLine.IsStatement (l : CodeLine) : Prop where
  named : l.Named
  mark : l.mark ≠ '"'
  ends : l.rest.getLast? = some ';'
  literals : closesLiterals l.rest

/-- After the blanks for its depth, a statement stays at the depth. -/
theorem CodeLine.IsStatement.leads {l : CodeLine} (h : l.IsStatement)
    (d : Nat) :
    Leads (d + 1) ((indent (d + 1)).toList ++ l.chars) (d + 1) := by
  have hindent : (indent (d + 1)).toList =
      List.replicate (4 * (d + 1)) ' ' := by
    rw [indent, String.toList_ofList]
  have hlast : ((indent (d + 1)).toList ++ l.chars).getLast? = some ';' := by
    simp [chars, List.getLast?_append, List.getLast?_cons, h.ends]
  have hline : IsLine ((d + 1 : Nat) : Int)
      ((indent (d + 1)).toList ++ l.chars) := by
    -- the first character after the blanks is the first one of a word
    obtain ⟨c, cs, hword⟩ : ∃ c cs, l.word.toList = c :: cs := by
      apply List.exists_cons_of_ne_nil
      intro hnil
      have hnamed := h.named.1
      rw [hnil] at hnamed
      cases hnamed
    have hc : c ≠ ' ' := by
      rintro rfl
      exact head?_word h.named.1 [] (by decide : isWordPart ' ' = false)
        (by rw [hword]; rfl)
    have hchars : l.chars = c :: (cs ++ l.mark :: l.rest) := by
      rw [chars, hword]
      rfl
    rw [hindent, hchars] at hlast ⊢
    exact .statement rfl (Nat.succ_pos d) rfl hc hlast
  have hliterals : closesLiterals ((indent (d + 1)).toList ++ l.chars) := by
    apply closesLiterals_append
    · apply closesLiterals_of_not_mem
      rw [hindent]
      intro hquote
      exact absurd (List.eq_of_mem_replicate hquote) (by decide)
    · exact closesLiterals_append (closesLiterals_of_isWord h.named.1)
        (closesLiterals_cons h.mark h.literals)
  exact .flat (opens_of_getLast? hlast (by decide))
    (closes_of_getLast? hlast (by decide)) hline hliterals

namespace Statement

/-- A statement that is no definition is one line of code. -/
theorem exists_line_of_line? {s : Statement} {l : CodeLine}
    (h : s.line? = some l) (depth : Nat) :
    ∃ line, s.lines depth = [line] ∧
      line.toList = (indent depth).toList ++ l.chars := by
  cases s with
  | print values lineEnd =>
    cases h
    refine ⟨_, rfl, ?_⟩
    cases lineEnd <;>
      simp [CodeLine.chars, printItems, itemSource, List.flatMap_map]
  | declareZero name =>
    cases h
    exact ⟨_, rfl, by simp [CodeLine.chars]⟩
  | call callee argument =>
    cases h
    refine ⟨_, rfl, ?_⟩
    cases argument <;> simp [CodeLine.chars]
  | function name parameter body => cases h
  | main body => cases h

theorem closesLiterals_items {values : List Value} (lineEnd : Bool)
    (h : ∀ v ∈ values, v.Named) :
    closesLiterals ((printItems values lineEnd).flatMap itemSource) := by
  apply closesLiterals_flatMap
  intro item hitem
  cases item with
  | none => decide
  | some v =>
    have hv : v ∈ values := by
      cases lineEnd <;> simpa [printItems] using hitem
    have hsource := closesLiterals_source (h v hv)
    exact closesLiterals_append (show closesLiterals " << ".toList by decide)
      hsource

theorem isStatement_of_line? {s : Statement} {l : CodeLine} (hs : s.Named)
    (h : s.line? = some l) : l.IsStatement := by
  have hnamed := hs.line? h
  cases s with
  | print values lineEnd =>
    cases h
    refine ⟨hnamed, show ':' ≠ '"' by decide,
      by rw [← List.append_assoc, List.getLast?_concat], ?_⟩
    apply closesLiterals_append (by decide)
    exact closesLiterals_append (closesLiterals_items lineEnd hs) (by decide)
  | declareZero name =>
    cases h
    refine ⟨hnamed, show ' ' ≠ '"' by decide,
      by simp [List.getLast?_append], ?_⟩
    exact closesLiterals_append (closesLiterals_of_isWord hs) (by decide)
  | call callee argument =>
    cases h
    refine ⟨hnamed, show '(' ≠ '"' by decide,
      by simp [List.getLast?_append], ?_⟩
    refine closesLiterals_append (closesLiterals_flatMap ?_) (by decide)
    intro v hv
    exact closesLiterals_source (hs.2 v (Option.mem_toList.mp hv))
  | function name parameter body => cases h
  | main body => cases h

theorem isStatement_returnLine : returnLine.IsStatement where
  named := ⟨show isWord "return".toList by decide,
    show isWordPart ' ' = false by decide⟩
  mark := by decide
  ends := rfl
  literals := by decide

/-! ## Definitions -/

/-- The lines of a statement, each as a list of characters. -/
def rows (depth : Nat) (s : Statement) : List (List Char) :=
  (s.lines depth).map String.toList

/-- The lines of a list of statements, each as a list of characters. -/
def rowsOf (depth : Nat) (ss : List Statement) : List (List Char) :=
  (linesOf depth ss).map String.toList

theorem laid_of_line? {s : Statement} {l : CodeLine} (hs : s.Named)
    (h : s.line? = some l) (d : Nat) :
    Laid (d + 1) (s.rows (d + 1)) (d + 1) := by
  obtain ⟨line, hlines, hline⟩ := exists_line_of_line? h (d + 1)
  rw [rows, hlines, List.map_singleton, hline]
  exact .single ((isStatement_of_line? hs h).leads d)

theorem leads_functionHead {name : String} {parameter : Option String}
    (hname : isWord name.toList)
    (hparameter : ∀ p ∈ parameter, isWord p.toList) (d : Nat) :
    Leads d (functionHead name parameter).toList (d + 1) := by
  have hhead : (functionHead name parameter).toList =
      ("void ".toList ++ (name.toList ++ '(' ::
        (parameter.toList.flatMap (fun p => "auto ".toList ++ p.toList) ++
          [')']))) ++ [' ', '\x7b'] := by
    cases parameter <;> simp [functionHead]
  rw [hhead]
  refine .head rfl (show Text.isBlank 'v' = false by decide) ?_ ?_
  · exact List.isSuffixOf_iff_suffix.mpr (List.suffix_append _ _)
  · refine closesLiterals_append (closesLiterals_append (by decide) ?_)
      (by decide)
    apply closesLiterals_append (closesLiterals_of_isWord hname)
    apply closesLiterals_cons (by decide)
    refine closesLiterals_append (closesLiterals_flatMap ?_) (by decide)
    intro p hp
    apply closesLiterals_append (by decide)
    exact closesLiterals_of_isWord (hparameter p (Option.mem_toList.mp hp))

/-- A function comes back to the depth it starts at, and its body is one
    deeper. -/
theorem laid_function {name : String} {parameter : Option String}
    {body : List Statement} {d : Nat}
    (h : (function name parameter body).Named)
    (hbody : Laid (d + 1) (rowsOf (d + 1) body) (d + 1)) :
    Laid d ((function name parameter body).rows d) d := by
  have hrows : (function name parameter body).rows d =
      (functionHead name parameter).toList ::
        (rowsOf (d + 1) body ++ [['\x7d']]) := by
    simp [rows, rowsOf, lines, closing]
  rw [hrows]
  exact .cons (leads_functionHead h.1 h.2.1 d)
    (hbody.append (.single (.closing d)))

/-- A `main` ends at the depth it starts at: its body is laid out one level
    deeper, with some fixed lines around it. -/
theorem laid_main {body : List Statement} {d : Nat}
    (hbody : Laid (d + 1) (rowsOf (d + 1) body) (d + 1)) :
    Laid d ((main body).rows d) d := by
  have hrows : (main body).rows d = mainHead.map String.toList ++
      (rowsOf (d + 1) body ++
        [(indent (d + 1)).toList ++ returnLine.chars, ['\x7d']]) := by
    simp [rows, rowsOf, lines, closing, returnLine, CodeLine.chars]
  have hhead : Laid d (mainHead.map String.toList) (d + 1) :=
    .cons (.head rfl (show Text.isBlank 'i' = false by decide) (by decide)
      (by decide)) (.ofFixed (by decide) (d + 1))
  rw [hrows]
  exact hhead.append (hbody.append
    (.cons (isStatement_returnLine.leads d) (.single (.closing d))))

mutual

theorem laid : ∀ (s : Statement) (d : Nat), s.Named →
    Laid (d + 1) (s.rows (d + 1)) (d + 1)
  | print _ _, d, h => laid_of_line? h rfl d
  | declareZero _, d, h => laid_of_line? h rfl d
  | call _ _, d, h => laid_of_line? h rfl d
  | function _ _ body, d, h => laid_function h (laidAll body (d + 1) h.2.2)
  | main body, d, h => laid_main (laidAll body (d + 1) h)

theorem laidAll : ∀ (ss : List Statement) (d : Nat), NamedAll ss →
    Laid (d + 1) (rowsOf (d + 1) ss) (d + 1)
  | [], d, _ => .nil (d + 1)
  | s :: rest, d, h => by
    rw [rowsOf, linesOf, List.map_append]
    exact (laid s d h.1).append (laidAll rest d h.2)

end

end Statement

/-- Definitions outside all others, with an empty line after each. -/
theorem Laid.ofDefinitions {α : Type} {as : List α} {lines : α → List String}
    (h : ∀ a ∈ as, Laid 0 ((lines a).map String.toList) 0) :
    Laid 0 ((as.flatMap fun a => lines a ++ [""]).map String.toList) 0 := by
  rw [List.map_flatMap]
  apply Laid.flatMap
  intro a ha
  rw [List.map_append]
  exact (h a ha).append (.ofFixed (by decide) 0)

/-- The lines of a source file come back to depth 0. -/
theorem Module.laid {m : Module} (h : m.Named) :
    Laid 0 (m.lines.map String.toList) 0 := by
  have hpreamble : Laid 0 (preamble.map String.toList) 0 :=
    .ofFixed (by decide) 0
  have hfunction : ∀ f ∈ m.functions, Laid 0 (f.lines.map String.toList) 0 := by
    intro f hf
    have hbody := Statement.laidAll f.body 0 (h.1 f hf).2.2
    exact Statement.laid_function (h.1 f hf) hbody
  have hentryPoint : ∀ e ∈ m.entryPoints,
      Laid 0 (e.lines.map String.toList) 0 := by
    intro e he
    have hbody := Statement.laidAll e.body 0 (h.2 e he)
    exact Statement.laid_main hbody
  rw [lines, List.map_append, List.map_append]
  exact (hpreamble.append (.ofDefinitions hfunction)).append
    (.ofDefinitions hentryPoint)

/-! ## Lines without line feeds -/

theorem newline_not_mem_of_isWord {cs : List Char} (h : isWord cs) :
    '\n' ∉ cs := by
  intro hmem
  have hpart := Lexeme.isWordPart_of_isWord h '\n' hmem
  revert hpart
  decide

theorem newline_not_mem_escape {content : String}
    (h : '\n' ∉ content.toList) : '\n' ∉ (escape content).toList := by
  rw [escape, String.toList_ofList, List.mem_flatMap]
  rintro ⟨c, hc, hmem⟩
  have hchar : '\n' = c := by
    unfold escapeChar at hmem
    split at hmem
    · simpa using hmem
    · simpa using hmem
  rw [hchar] at h
  exact h hc

theorem Statement.newline_not_mem_print {values : List Value}
    (h : ∀ v ∈ values, '\n' ∉ v.source.toList) (lineEnd : Bool)
    (depth : Nat) :
    ∀ line ∈ (print values lineEnd).lines depth, '\n' ∉ line.toList := by
  have hitems : '\n' ∉ (printItems values lineEnd).flatMap itemSource := by
    rw [List.mem_flatMap]
    rintro ⟨item, hitem, hmem⟩
    cases item with
    | none => exact absurd hmem (by decide)
    | some v =>
      have hv : v ∈ values := by
        cases lineEnd <;> simpa [printItems] using hitem
      exact h v hv (by simpa [itemSource] using hmem)
  obtain ⟨line, hlines, hline⟩ :=
    exists_line_of_line? (show (print values lineEnd).line? = some _ from rfl)
      depth
  rw [hlines]
  intro l hl
  rw [List.mem_singleton.mp hl, hline]
  simp [CodeLine.chars, indent, hitems]

end SayScript.Target

namespace SayScript

namespace Statement

/-- No name and no text that the statement itself has goes on over a line
    end. -/
def OneLine (s : Statement) : Prop :=
  ∀ text ∈ s.ownNames ++ s.ownTexts, '\n' ∉ text.toList

/-- The text of an operand is a name or a text of the statement. -/
theorem text_mem_of_mem_ownOperands {s : Statement} {o : Operand}
    (h : o ∈ s.ownOperands) : o.text ∈ s.ownNames ++ s.ownTexts := by
  have hoperand : ∀ os : List Operand, o ∈ os →
      o.text ∈ os.filterMap Operand.name? ∨
        o.text ∈ os.filterMap Operand.literal? := by
    intro os ho
    rw [List.mem_filterMap, List.mem_filterMap]
    cases o with
    | literal text => exact .inr ⟨_, ho, rfl⟩
    | var name => exact .inl ⟨_, ho, rfl⟩
  rw [List.mem_append]
  cases s with
  | say fragments terminator =>
    rcases hoperand fragments h with hname | htext
    · exact .inl hname
    · exact .inr (List.mem_append_left _ htext)
  | call callee argument =>
    rcases hoperand argument.toList h with hname | htext
    · exact .inl (List.mem_cons_of_mem _ hname)
    · exact .inr htext
  | set name => cases h
  | function name parameter body => cases h
  | start body => cases h

theorem OneLine.values {s : Statement} (h : s.OneLine) :
    ∀ v ∈ s.ownOperands.map Operand.lower, '\n' ∉ v.source.toList := by
  intro v hv
  obtain ⟨o, ho, rfl⟩ := List.mem_map.mp hv
  have htext := h _ (text_mem_of_mem_ownOperands ho)
  cases o with
  | var name => exact htext
  | literal text =>
    have hescape : '\n' ∉ (Target.escape text).toList :=
      Target.newline_not_mem_escape htext
    simpa [Operand.lower, Target.Value.source] using hescape

mutual

/-- The lines of a statement are whole lines. -/
theorem newline_not_mem_lines : ∀ (s : Statement) (depth : Nat),
    (∀ node ∈ s.nodes, node.OneLine) →
    ∀ line ∈ s.lower.lines depth, '\n' ∉ line.toList
  | say fragments terminator, depth, h => by
    have hs := h _ (mem_nodes_self _)
    unfold lower
    split
    · exact Target.Statement.newline_not_mem_print hs.values true depth
    · -- the terminator is printed as the last value
      apply Target.Statement.newline_not_mem_print
      rw [List.forall_mem_append]
      refine ⟨hs.values, ?_⟩
      intro v hv
      have hescape := Target.newline_not_mem_escape
        (hs terminator (by simp [ownTexts]))
      rw [List.mem_singleton.mp hv]
      simpa [Target.Value.source] using hescape
  | set name, depth, h => by
    have hname := h _ (mem_nodes_self _) name (by simp [ownNames])
    simp [lower, Target.Statement.lines, Target.indent, hname]
  | call callee argument, depth, h => by
    have hs := h _ (mem_nodes_self _)
    have hcallee := hs callee (by simp [ownNames])
    have hvalues := hs.values
    cases argument with
    | none =>
      simp [lower, Target.Statement.lines, Target.indent, hcallee]
    | some o =>
      have ho : '\n' ∉ o.lower.source.toList :=
        hvalues _ (List.mem_map_of_mem (List.mem_singleton.mpr rfl))
      simp [lower, Target.Statement.lines, Target.indent, hcallee, ho]
  | function name parameter body, depth, h => by
    have hs := h _ (mem_nodes_self _)
    have hname := hs name (by simp [ownNames])
    have hbody := newline_not_mem_linesOf body (depth + 1)
      (List.forall_mem_cons.mp h).2
    have hhead : '\n' ∉ (Target.functionHead name parameter).toList := by
      cases parameter with
      | none => simp [Target.functionHead, hname]
      | some p =>
        have hp := hs p (by simp [ownNames])
        simp [Target.functionHead, hname, hp]
    rw [lower, Target.Statement.lines, List.forall_mem_append, List.forall_mem_cons]
    exact ⟨⟨hhead, hbody⟩, by decide⟩
  | start body, depth, h => by
    have hbody := newline_not_mem_linesOf body (depth + 1)
      (List.forall_mem_cons.mp h).2
    have hreturn : '\n' ∉ (Target.indent (depth + 1) ++ "return 0;").toList := by
      simp [Target.indent]
    rw [lower, Target.Statement.lines, List.forall_mem_append, List.forall_mem_append]
    refine ⟨⟨by decide, hbody⟩, ?_⟩
    rw [List.forall_mem_cons]
    exact ⟨hreturn, by decide⟩

theorem newline_not_mem_linesOf : ∀ (ss : List Statement) (depth : Nat),
    (∀ node ∈ nodesOf ss, node.OneLine) →
    ∀ line ∈ Target.Statement.linesOf depth (lowerAll ss),
      '\n' ∉ line.toList
  | [], _, _ => by simp [lowerAll, Target.Statement.linesOf]
  | s :: rest, depth, h => by
    rw [nodesOf_cons, List.forall_mem_append] at h
    rw [lowerAll, Target.Statement.linesOf, List.forall_mem_append]
    exact ⟨newline_not_mem_lines s depth h.1,
      newline_not_mem_linesOf rest depth h.2⟩

end

end Statement

namespace Program

variable {limit : Nat} {script text : String} {p : Program}

theorem newline_not_mem_lines (h : ∀ node ∈ p.nodes, node.OneLine) :
    ∀ line ∈ p.lower.lines, '\n' ∉ line.toList := by
  have hstatement : ∀ s ∈ p.statements, ∀ line ∈ s.lower.lines 0,
      '\n' ∉ line.toList := by
    intro s hs
    apply s.newline_not_mem_lines 0
    intro node hnode
    exact h node (Statement.mem_nodesOf hs hnode)
  have hblank : ∀ line ∈ [""], '\n' ∉ line.toList := by decide
  rw [Target.Module.lines, List.forall_mem_append, List.forall_mem_append]
  refine ⟨⟨by decide, ?_⟩, ?_⟩
  · intro line hline
    obtain ⟨f, hf, hline⟩ := List.mem_flatMap.mp hline
    rw [functions_lower] at hf
    obtain ⟨s, hs, hlower⟩ := List.mem_filterMap.mp hf
    rcases List.mem_append.mp hline with hline | hline
    · cases s <;> cases hlower
      exact hstatement _ hs line hline
    · exact hblank line hline
  · intro line hline
    obtain ⟨e, he, hline⟩ := List.mem_flatMap.mp hline
    rw [entryPoints_lower] at he
    obtain ⟨s, hs, hlower⟩ := List.mem_filterMap.mp he
    rcases List.mem_append.mp hline with hline | hline
    · cases s <;> cases hlower
      exact hstatement _ hs line hline
    · exact hblank line hline

/-- What comes from a script fits on a line, as each token does. -/
theorem oneLine_of_ofScript (h : ofScript limit script = .ok p) :
    ∀ node ∈ p.nodes, node.OneLine := by
  obtain ⟨ts, hts, hread⟩ := ofScript_eq_ok h
  have hnamed := named_of_ofScript h
  intro node hnode text htext
  rcases List.mem_append.mp htext with hname | htext
  · exact Target.newline_not_mem_of_isWord
      (hnamed text (List.mem_flatMap.mpr ⟨node, hnode, hname⟩))
  · have hmem : text ∈ p.texts := List.mem_flatMap.mpr ⟨node, hnode, htext⟩
    rcases exists_token_of_mem_texts hread text hmem with
      rfl | ⟨t, ht, hkind, rfl⟩
    · decide
    · exact Token.newline_not_mem_of_literal hts ht hkind

/-- The lines of the text are those of the source file, and after the last
    line feed an empty one. -/
theorem splitOn_text (h : ofScript limit script = .ok p) :
    p.text.toList.splitOn '\n' = p.lower.lines.map String.toList ++ [[]] := by
  have hwhole := Text.splitOn_unlines_append ""
    (newline_not_mem_lines (oneLine_of_ofScript h))
  rw [String.append_empty] at hwhole
  exact hwhole

end Program

/-- **C++ text is laid out by depth.**  The depth before a line, the lines
    before it that end in an opening brace less those that are a closing
    brace, is never negative, and it is 0 at the end.  Each line is what a
    line at its depth can be, and closes all string literals that it
    opens. -/
theorem layout_of_compile {limit : Nat} {script text : String}
    (h : compile limit script = .ok text) :
    (∀ i, 0 ≤ Target.depth ((text.toList.splitOn '\n').take i)) ∧
    Target.depth (text.toList.splitOn '\n') = 0 ∧
    ∀ i line, (text.toList.splitOn '\n')[i]? = some line →
      Target.IsLine (Target.depth ((text.toList.splitOn '\n').take i)) line ∧
        Target.closesLiterals line := by
  obtain ⟨p, hread, rfl⟩ := compile_eq_ok h
  -- what follows the last line feed is one more blank line
  have hlast : Target.Laid 0 [[]] 0 := .ofFixed (by decide) 0
  have hlaid := (Target.Module.laid
    (Program.named_lower (Program.named_of_ofScript hread))).append hlast
  rw [Program.splitOn_text hread]
  exact hlaid.lines

/-- A function in a `main`, with literals that look like code, one of which
    ends in a backslash. -/
theorem layout_of_compile_nested :
    let p : Program := ⟨[.start [
      .function "f" none [.say [.literal "; \x7d \\", .literal " \x7b"] "\r"],
      .call "f" none]]⟩
    let line :=
      "        std::cout << \"; \x7d \\\\\" << \" \x7b\" << \"\r\";".toList
    let lines := p.text.toList.splitOn '\n'
    compile 2 (p.source fun _ => 0) = .ok p.text ∧ lines[13]? = some line ∧
      Target.IsLine 2 line ∧ Target.closesLiterals line ∧
      Target.depth lines = 0 := by
  intro p line lines
  have hread : Program.ofScript 2 (p.source fun _ => 0) = .ok p :=
    Program.ofScript_source_of_fits (by decide) (by decide) _
  have hcompile : compile 2 (p.source fun _ => 0) = .ok p.text := by
    rw [compile, hread]
    rfl
  have hlines : lines = p.lower.lines.map String.toList ++ [[]] :=
    Program.splitOn_text hread
  have hline : lines[13]? = some line := by
    rw [hlines]
    decide +kernel
  have hdepth : Target.depth (lines.take 13) = 2 := by
    rw [hlines]
    decide +kernel
  obtain ⟨-, hend, hlaid⟩ := layout_of_compile hcompile
  obtain ⟨hisLine, hcloses⟩ := hlaid 13 line hline
  rw [hdepth] at hisLine
  exact ⟨hcompile, hline, hisLine, hcloses, hend⟩

end SayScript
