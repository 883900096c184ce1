import SayScript.Proofs.Lines
import SayScript.Proofs.Plans

/-! # What an option changes

    Two options leave what a run does to the script alone.  Without advice
    (`Command.quiet`) a run does the same and says the same, less the
    warnings, which are the first lines of standard error: no other line in
    front looks like one (`execute_quiet`).  With intermediate results the same
    command has a longer plan.

    The command lines that differ by one of these options make commands that
    differ in this way, `eq_quiet_of_ofArguments?` and
    `eq_build_of_ofArguments?`. -/

namespace SayScript

/-! ## Warnings -/

theorem LayoutWarning.newline_not_mem_message (w : LayoutWarning) :
    '\n' ∉ w.message.toList := by
  cases w <;>
    simp only [message, String.toList_append, List.mem_append,
      Text.not_mem_toString (show ¬ '\n'.isDigit by decide), or_false] <;>
    decide

/-- Does the line look like a warning? -/
def isWarning (line : List Char) : Bool :=
  "warning: ".toList.isPrefixOf line

theorem Text.head?_trimEnd {c : Char} (cs : List Char) (hc : ¬ isBlank c) :
    (trimEnd (c :: cs)).head? = some c := by
  rw [trimEnd, List.reverse_cons, List.dropWhile_append]
  by_cases hblank : (cs.reverse.dropWhile isBlank).isEmpty
  · rw [if_pos hblank, List.dropWhile_cons_of_neg hc]
    rfl
  · rw [if_neg hblank, List.reverse_append]
    rfl

/-- A drawing begins with the headline of the report. -/
theorem Report.head?_draw (r : Report) : r.draw.toList.head? = some '[' := by
  have hrows : ∃ others, r.draw = String.ofList (Text.trimEnd
      ("\n".intercalate (r.headline :: others)).toList) := by
    unfold draw
    cases r.labels with
    | nil => exact ⟨[], rfl⟩
    | cons first others => exact ⟨r.frame first others, rfl⟩
  obtain ⟨others, hdraw⟩ := hrows
  have hcons : ∃ cs,
      ("\n".intercalate (r.headline :: others)).toList = '[' :: cs := by
    by_cases hothers : others = []
    · simp [hothers, headline]
    · simp [String.intercalate_cons_of_ne_nil hothers, headline]
  obtain ⟨cs, hcs⟩ := hcons
  rw [hdraw, String.toList_ofList, hcs]
  exact Text.head?_trimEnd cs (by decide)

/-- What is said about a failure does not look like a warning. -/
theorem RunFailure.head?_message (failure : RunFailure) :
    failure.message.toList.head? ≠ some 'w' := by
  cases failure with
  | access context fault =>
    cases context with
    | none => simp [message]
    | some context => simp [message]
  | rejected report => simp [message, Report.head?_draw]

/-- Warnings are told from the text after them. -/
theorem dropWhile_isWarning {ls : List String} {rest : String}
    (hls : ∀ l ∈ ls, '\n' ∉ l.toList ∧ isWarning l.toList)
    (hrest : rest.toList.head? ≠ some 'w') :
    ((Text.unlines ls ++ rest).toList.splitOn '\n').dropWhile isWarning =
      rest.toList.splitOn '\n' := by
  have hwarnings : ∀ line ∈ ls.map String.toList, isWarning line := by
    intro line hmem
    obtain ⟨l, hl, rfl⟩ := List.mem_map.mp hmem
    exact (hls l hl).2
  rw [Text.splitOn_unlines_append rest fun l hmem => (hls l hmem).1,
    List.dropWhile_append_of_pos hwarnings]
  -- the first line after the warnings has the first character of the rest
  obtain ⟨line, lines, hlines⟩ :=
    List.exists_cons_of_ne_nil (List.splitOn_ne_nil '\n' rest.toList)
  have hline : ¬ isWarning line := by
    intro hwarning
    obtain ⟨more, hmore⟩ := List.isPrefixOf_iff_prefix.mp hwarning
    have htext : ['\n'].intercalate (rest.toList.splitOn '\n') = rest.toList :=
      List.intercalate_splitOn '\n'
    rw [hlines, ← hmore] at htext
    rw [← htext] at hrest
    cases lines <;> simp at hrest
  rw [hlines, List.dropWhile_cons_of_neg hline]

/-- The result `q` is `r` without the warnings that standard error starts
    with. -/
structure RunResult.Quietens (q r : RunResult) : Prop where
  exitCode : q.exitCode = r.exitCode
  stdout : q.stdout = r.stdout
  stderr : q.stderr.toList.splitOn '\n' =
    (r.stderr.toList.splitOn '\n').dropWhile isWarning

namespace Command

/-- The command without advice. -/
def quiet : Command → Command
  | build source output intermediates options =>
    build source output intermediates { options with advises := false }
  | check source options => check source { options with advises := false }

section Quiet

variable (c : Command)

theorem process_quiet {m : Type → Type} [Monad m] (st : Storage m)
    (script : String) : c.quiet.process st script = c.process st script := by
  cases c <;> rfl

theorem advice_quiet (script : String) : advice c.quiet.options script = "" := by
  cases c <;> rfl

theorem exists_advice_eq (options : Options) (script : String) :
    ∃ ls, advice options script = Text.unlines ls ∧
      ∀ l ∈ ls, '\n' ∉ l.toList ∧ isWarning l.toList := by
  unfold advice
  split
  · refine ⟨_, rfl, ?_⟩
    intro l hmem
    obtain ⟨w, -, rfl⟩ := List.mem_map.mp hmem
    refine ⟨?_, ?_⟩
    · rw [String.toList_append, List.mem_append, not_or]
      exact ⟨by decide, w.newline_not_mem_message⟩
    · rw [isWarning, String.toList_append, List.isPrefixOf_iff_prefix]
      exact List.prefix_append _ _
  · exact ⟨[], rfl, nofun⟩

theorem conclude_quiet (script : String) (outcome : Except RunFailure String) :
    (c.quiet.conclude script outcome).Quietens (c.conclude script outcome) := by
  obtain ⟨ls, hadvice, hls⟩ := exists_advice_eq c.options script
  cases outcome with
  | ok line =>
    refine ⟨rfl, rfl, ?_⟩
    simp only [conclude, advice_quiet, hadvice]
    have hempty : Text.unlines ls ++ "" = Text.unlines ls := String.append_empty
    rw [← hempty]
    exact (dropWhile_isWarning hls (by decide)).symm
  | error failure =>
    refine ⟨rfl, rfl, ?_⟩
    simp only [conclude, advice_quiet, hadvice, String.empty_append]
    exact (dropWhile_isWarning hls failure.head?_message).symm

theorem unread_quiet (fault : StorageFault) :
    (c.quiet.unread fault).Quietens (c.unread fault) := by
  have hsame : c.quiet.unread fault = c.unread fault := by cases c <;> rfl
  rw [hsame]
  refine ⟨rfl, rfl, ?_⟩
  -- there are no warnings yet
  have hnone : ∀ l ∈ ([] : List String), '\n' ∉ l.toList ∧ isWarning l.toList :=
    nofun
  have hlines := dropWhile_isWarning hnone (RunFailure.head?_message
    (.access (some ("cannot open input file " ++ c.source)) fault))
  have hempty : Text.unlines [] = "" := rfl
  rw [hempty, String.empty_append] at hlines
  exact hlines.symm

/-- Without advice a run does the same and says the same, less the
    warnings. -/
theorem execute_quiet (t : FileTree) :
    (c.quiet.execute t).1.Quietens (c.execute t).1 ∧
      (c.quiet.execute t).2 = (c.execute t).2 := by
  have hread : ∀ c : Command, (FileTree.storage.readText c.source).run t =
    (t.readText (.ofString c.source), t) := fun _ => rfl
  have hsource : c.quiet.source = c.source := by cases c <;> rfl
  rw [execute, execute, run_run, run_run, hread, hread, hsource]
  cases t.readText (.ofString c.source) with
  | error fault => exact ⟨c.unread_quiet fault, rfl⟩
  | ok script =>
    simp only [process_quiet]
    exact ⟨c.conclude_quiet script _, rfl⟩

end Quiet

/-! ## Command lines -/

section Arguments

variable {items : List Item} {options options' : Options}
  {word source output directory : String} {paths rest : List String}

/-- The command with the given first word, paths and options. -/
def assemble? (word : String) (paths : List String) (directory : Option String)
    (options : Options) : Option Command :=
  if (paths ++ directory.toList).any String.isEmpty then none
  else
    match word, paths, directory with
    | "build", [source, output], directory =>
      some (.build source output directory options)
    | "check", [source], none => some (.check source options)
    | _, _, _ => none

theorem ofItems?_eq (word : String) (items : List Item) :
    ofItems? word items =
      (options? items).bind fun options =>
        (directory? items).bind fun directory =>
          assemble? word (operands items) directory options := by
  unfold ofItems?
  cases options? items with
  | none => rfl
  | some options =>
    cases directory? items with
    | none => rfl
    | some directory => rfl

theorem assemble?_quiet (word : String) (paths : List String)
    (directory : Option String) (options : Options) :
    assemble? word paths directory { options with advises := false } =
      (assemble? word paths directory options).map quiet := by
  unfold assemble?
  split
  · rfl
  · split <;> rfl

theorem assemble?_eq_build {given : Option String}
    {intermediates : Option String}
    (h : assemble? word paths given options =
      some (.build source output intermediates options')) :
    paths = [source, output] ∧ given = intermediates ∧ options = options' := by
  unfold assemble? at h
  split at h
  · cases h
  · split at h
    · cases h
      exact ⟨rfl, rfl, rfl⟩
    · cases h
    · cases h

theorem eq_nil_of_once? {α : Type} {as : List α} (h : once? as = some none) :
    as = [] := by
  cases as with
  | nil => rfl
  | cons a as =>
    cases as with
    | nil => cases h
    | cons b as => cases h

theorem eq_some_of_once? {α : Type} {a : α} {as : List α} {value : Option α}
    (h : once? (a :: as) = some value) : value = some a := by
  cases as with
  | nil =>
    cases h
    rfl
  | cons b as => cases h

theorem items?_noAdvice (rest : List String) :
    items? ("--no-indent-check" :: rest) =
      (items? rest).map (.noAdvice :: ·) := rfl

theorem items?_intermediates (directory : String) (rest : List String) :
    items? ("--emit-intermediates" :: directory :: rest) =
      if isDashed directory then none
      else (items? rest).map (.intermediates directory :: ·) := rfl

theorem options?_noAdvice (h : options? items = some options)
    (h' : options? (.noAdvice :: items) = some options') :
    options' = { options with advises := false } := by
  simp only [options?, bind, Option.bind_eq_some_iff] at h h'
  obtain ⟨value, hvalue, _, _, h⟩ := h
  obtain ⟨value', hvalue', _, hnone, h'⟩ := h'
  cases hvalue.symm.trans hvalue'
  cases eq_some_of_once? hnone
  -- the limit is read from the same text
  cases value with
  | none =>
    cases h
    cases h'
    rfl
  | some text =>
    obtain ⟨limit, hlimit, h⟩ := Option.bind_eq_some_iff.mp h
    obtain ⟨limit', hlimit', h'⟩ := Option.bind_eq_some_iff.mp h'
    cases hlimit.symm.trans hlimit'
    cases h
    cases h'
    rfl

theorem directory?_intermediates (directory : String)
    (h : directory? items = some none) :
    directory? (.intermediates directory :: items) = some (some directory) := by
  unfold directory? at h ⊢
  rw [List.filterMap_cons_some (by rfl), eq_nil_of_once? h]
  rfl

/-- Asking for no advice makes the quiet command. -/
theorem eq_quiet_of_ofArguments? {c q : Command}
    (h : ofArguments? (word :: rest) = some c)
    (h' : ofArguments? (word :: "--no-indent-check" :: rest) = some q) :
    q = c.quiet := by
  simp only [ofArguments?, bind, items?_noAdvice, Option.bind_eq_some_iff,
    Option.map_eq_some_iff] at h h'
  obtain ⟨items, hitems, h⟩ := h
  obtain ⟨_, ⟨items', hitems', rfl⟩, h'⟩ := h'
  cases hitems.symm.trans hitems'
  have hoperands : operands (.noAdvice :: items) = operands items := rfl
  rw [ofItems?_eq, Option.bind_eq_some_iff] at h h'
  obtain ⟨options, hoptions, h⟩ := h
  obtain ⟨options', hoptions', h'⟩ := h'
  cases options?_noAdvice hoptions hoptions'
  obtain ⟨given, hgiven, h⟩ := Option.bind_eq_some_iff.mp h
  obtain ⟨given', hgiven', h'⟩ := Option.bind_eq_some_iff.mp h'
  cases hgiven.symm.trans hgiven'
  rw [assemble?_quiet, hoperands, h] at h'
  cases h'
  rfl

/-- Asking for intermediate results changes nothing else about a command. -/
theorem eq_build_of_ofArguments? {full : Command}
    (h : ofArguments? ("build" :: rest) =
      some (.build source output none options))
    (h' : ofArguments? ("build" :: "--emit-intermediates" :: directory :: rest) =
      some full) :
    full = .build source output (some directory) options := by
  simp only [ofArguments?, bind, items?_intermediates,
    Option.bind_eq_some_iff] at h h'
  obtain ⟨items, hitems, h⟩ := h
  obtain ⟨_, hitems', h'⟩ := h'
  split at hitems'
  · cases hitems'
  rw [hitems] at hitems'
  cases hitems'
  have hoperands : operands (.intermediates directory :: items) =
    operands items := rfl
  rw [ofItems?_eq, Option.bind_eq_some_iff] at h h'
  obtain ⟨read, hread, h⟩ := h
  obtain ⟨read', hread', h'⟩ := h'
  cases hread.symm.trans hread'
  obtain ⟨given, hgiven, h⟩ := Option.bind_eq_some_iff.mp h
  obtain ⟨given', hgiven', h'⟩ := Option.bind_eq_some_iff.mp h'
  obtain ⟨hpaths, rfl, rfl⟩ := assemble?_eq_build h
  rw [directory?_intermediates directory hgiven] at hgiven'
  cases hgiven'
  rw [hoperands, hpaths] at h'
  unfold assemble? at h'
  split at h'
  · cases h'
  · cases h'
    rfl

/-- Is the argument a path, and not an option? -/
def isOperand (arg : String) : Bool :=
  !arg.isEmpty && !isDashed arg

theorem items?_operand {arg : String} (h : isOperand arg)
    (rest : List String) :
    items? (arg :: rest) = (items? rest).map (.operand arg :: ·) := by
  have hdashed : isDashed arg = false := by
    simp only [isOperand, Bool.and_eq_true, Bool.not_eq_true'] at h
    exact h.2
  have hend : arg ≠ "--" := by
    rintro rfl
    revert hdashed
    decide
  conv => lhs; unfold items?
  rw [if_neg hend, hdashed]
  rfl

theorem isDashed_of_number? {text : String} {n : Nat}
    (h : number? text = some n) : isDashed text = false := by
  by_cases hhead : text.toList.head? = some '-'
  · -- a dash is no digit
    obtain ⟨cs, hcs⟩ := List.head?_eq_some_iff.mp hhead
    rw [number?, hcs] at h
    simp at h
  · simp [isDashed, hhead]

theorem items?_limit {text : String} {n : Nat} (h : number? text = some n)
    (rest : List String) :
    items? ("--max-block-statements" :: text :: rest) =
      (items? rest).map (.limit text :: ·) := by
  have hitems : items? ("--max-block-statements" :: text :: rest) =
    if isDashed text then none
    else (items? rest).map (.limit text :: ·) := rfl
  rw [hitems, isDashed_of_number? h]
  rfl

/-- The command line that checks a script under a limit. -/
theorem ofArguments?_check {text : String} {n : Nat}
    (hsource : isOperand source) (h : number? text = some n) :
    ofArguments? ["check", source, "--max-block-statements", text] =
      some (check source ⟨n, true⟩) := by
  have hitems : items? [source, "--max-block-statements", text] =
      some [.operand source, .limit text] := by
    rw [items?_operand hsource, items?_limit h]
    rfl
  have hoptions : options? [.operand source, .limit text] =
      some ⟨n, true⟩ := by
    show (number? text).bind _ = _
    rw [h]
    rfl
  simp only [isOperand, Bool.and_eq_true, Bool.not_eq_true'] at hsource
  show (items? [source, "--max-block-statements", text]).bind _ = _
  rw [hitems, Option.bind_some, ofItems?_eq, hoptions]
  show assemble? "check" [source] none _ = _
  simp [assemble?, hsource.1]

/-- The command line that builds a script under a limit. -/
theorem ofArguments?_build {text : String} {n : Nat}
    (hsource : isOperand source) (houtput : isOperand output)
    (h : number? text = some n) :
    ofArguments? ["build", source, output, "--max-block-statements", text] =
      some (build source output none ⟨n, true⟩) := by
  have hitems : items? [source, output, "--max-block-statements", text] =
      some [.operand source, .operand output, .limit text] := by
    rw [items?_operand hsource, items?_operand houtput, items?_limit h]
    rfl
  have hoptions : options? [.operand source, .operand output, .limit text] =
      some ⟨n, true⟩ := by
    show (number? text).bind _ = _
    rw [h]
    rfl
  simp only [isOperand, Bool.and_eq_true, Bool.not_eq_true'] at hsource houtput
  show (items? [source, output, "--max-block-statements", text]).bind _ = _
  rw [hitems, Option.bind_some, ofItems?_eq, hoptions]
  show assemble? "build" [source, output] none _ = _
  simp [assemble?, hsource.1, houtput.1]

end Arguments

end Command

end SayScript
