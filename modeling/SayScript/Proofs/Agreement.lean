import SayScript.Proofs.Footprint
import SayScript.Proofs.Options

/-! # Runs agree with compilation and with each other

    When storage has no fault, `Journal.Smooth`, all tasks of a plan are done
    and the result of a run is the verdict on the script, which neither the
    kind of the command nor the intermediate results have a part in.  The
    output then holds the text (`file?_delivered`), and a rejected script
    leaves every file as it was, except that its tokens can have been written
    (`file?_of_rejected`).

    `Command.agreement` states this for command lines that differ by one
    option. -/

namespace SayScript

/-! ## What runs leave -/

section Replays

variable {t t' : FileTree} {events : List Event} {path text : String}

/-- What is written last is there in the end. -/
theorem Replays.of_last
    (h : Replays t (events ++ [⟨.writeText path text, .ok ()⟩]) t') :
    t'.readText (.ofString path) = .ok text ∧
      t'.file? (t.placeOf path) = some (.text text) := by
  obtain ⟨between, hfirst, hsecond⟩ := h.of_append
  cases hsecond with
  | cons hon hrest =>
    cases hrest
    obtain ⟨_, habsurd, -⟩ | ⟨_, _, huse, ⟨⟨_, habsurd⟩, -⟩ | ⟨-, hwrite⟩⟩ :=
      Use.on_cases hon
    · cases habsurd
    · cases habsurd
    · cases huse
      refine ⟨FileTree.readText_of_writeText hwrite, ?_⟩
      rw [FileTree.placeOf, ← hfirst.home]
      exact FileTree.file?_of_writeText hwrite

end Replays

namespace Command

variable {c : Command} {t t' : FileTree}
  {script source output directory text : String} {options : Options}
  {rejection : Rejection}

/-- The output of an accepted script holds its text. -/
theorem file?_delivered (h : Replays t ((c.plan script).map Task.done) t')
    (houtput : c.output? = some output)
    (hcompile : compile c.options.limit script = .ok text) :
    t'.readText (.ofString output) = .ok text ∧
      t'.file? (t.placeOf output) = some (.text text) := by
  cases c with
  | check source options => cases houtput
  | build source output' intermediates options =>
    cases houtput
    rw [plan, deliveries, hcompile, List.map_append] at h
    exact h.of_last

/-- A rejected script leaves files as they were, up to its tokens. -/
theorem file?_of_rejected (h : Replays t ((c.plan script).map Task.done) t')
    (hcompile : compile c.options.limit script = .error rejection)
    (place : Place)
    (hapart : ∀ directory fault, c.intermediates = some directory →
      rejection = .read fault → t.placeOf (tokensPath directory) ≠ place) :
    t'.file? place = t.file? place := by
  apply h.file?
  intro path text hdone hplace
  obtain ⟨task, hmem, heq⟩ := List.mem_map.mp hdone
  have huse : task.use = .writeText path text := congrArg Event.use heq
  obtain ⟨directory, hi, rfl, tokens, hscan⟩ | ⟨-, program, hread⟩ :=
    mem_plan_writeText hmem huse
  · cases hread : Program.ofTokens c.options.limit tokens with
    | error fault =>
      cases hcompile.symm.trans (compile_of_read_error hscan hread)
      exact hapart directory fault hi rfl hplace
    | ok program =>
      cases hcompile.symm.trans (compile_of_read_ok hscan hread)
  · rw [compile, hread] at hcompile
    cases hcompile

theorem stderr_verdict_of_error (c : Command)
    (hcompile : compile c.options.limit script = .error rejection) :
    (c.verdict script).stderr = advice c.options script ++
      ((rejection.report script (some c.source)).draw ++ "\n") := by
  rw [verdict, hcompile]
  rfl

theorem stderr_verdict_eq {c' : Command} (hoptions : c'.options = c.options)
    (hsource : c'.source = c.source) :
    (c'.verdict script).stderr = (c.verdict script).stderr := by
  unfold verdict
  rw [hoptions, hsource]
  cases compile c.options.limit script with
  | ok text => simp only [conclude, hoptions]
  | error rejection => simp only [conclude, hoptions]

theorem smooth_check (source : String) (options : Options) (t : FileTree) :
    ((check source options).watch t).2.Smooth := by
  obtain ⟨hends, -⟩ := (check source options).ends_run t
  intro e hmem
  rw [hends.events_of_check] at hmem
  cases hmem

/-- The warnings on a script, if they are wanted. -/
def warnings (options : Options) (script : String) : List String :=
  if options.advises then (Layout.advise script).map ("warning: " ++ ·.message)
  else []

theorem advice_eq (options : Options) (script : String) :
    advice options script = Text.unlines (warnings options script) := by
  unfold advice warnings
  split <;> rfl

/-! ## The result -/

/-- The runs on a source agree with `compile` on its script and with each
    other. -/
structure Agreement (t : FileTree) (source output script : String)
    (options : Options) : Prop where
  check_exitCode : ((check source options).execute t).1.exitCode = 0 ↔
    ∃ text, compile options.limit script = .ok text
  build_exitCode :
    ((build source output none options).execute t).1.exitCode = 0 ↔
      ∃ text, compile options.limit script = .ok text
  delivered : ∀ text, compile options.limit script = .ok text →
    ((build source output none options).execute t).2.readText
      (.ofString output) = .ok text
  stderr_eq : ((check source options).execute t).1.stderr =
    ((build source output none options).execute t).1.stderr
  rejected : ∀ rejection, compile options.limit script = .error rejection →
    ((check source options).execute t).1.stderr =
      Text.unlines (warnings options script) ++
        ((rejection.report script (some source)).draw ++ "\n")
  /-- These are the commands for a given limit. -/
  limited : ∀ n, isOperand source → isOperand output →
    number? n = some options.limit → options.advises →
    ofArguments? ["check", source, "--max-block-statements", n] =
      some (check source options) ∧
    ofArguments? ["build", source, output, "--max-block-statements", n] =
      some (build source output none options)
  /-- Without advice a command does the same but for the warnings. -/
  quiet : ∀ word rest loud quiet, ofArguments? (word :: rest) = some loud →
    ofArguments? (word :: "--no-indent-check" :: rest) = some quiet →
    (quiet.execute t).1.Quietens (loud.execute t).1 ∧
      (quiet.execute t).2 = (loud.execute t).2
  /-- Intermediate results can get in the way of the output only where the
      output of a script that cannot be read is the file of its tokens. -/
  dumped : ∀ directory rest full,
    ofArguments? ("build" :: rest) =
      some (build source output none options) →
    ofArguments? ("build" :: "--emit-intermediates" :: directory :: rest) =
      some full →
    (full.watch t).2.Smooth →
    (full.execute t).1 = ((build source output none options).execute t).1 ∧
      ((full.execute t).2.file? (t.placeOf output) =
          ((build source output none options).execute t).2.file?
            (t.placeOf output) ∨
        (∃ fault, compile options.limit script = .error (.read fault)) ∧
          t.placeOf output = t.placeOf (tokensPath directory))

/-- Where the source can be read and storage has no fault, the commands
    agree. -/
theorem agreement (t : FileTree) (source output script : String)
    (options : Options) (hsource : t.readText (.ofString source) = .ok script)
    (hsmooth : ((build source output none options).watch t).2.Smooth) :
    Agreement t source output script options := by
  have hcheck : ((check source options).execute t).1 =
      (check source options).verdict script :=
    (execute_of_smooth (check source options) hsource
      (smooth_check source options t)).1
  obtain ⟨hbuild, hplain⟩ :=
    execute_of_smooth (build source output none options) hsource hsmooth
  refine ⟨?_, ?_, ?_, ?_, ?_, ?_, ?_, ?_⟩
  · rw [hcheck]
    exact exitCode_verdict
  · rw [hbuild]
    exact exitCode_verdict
  · intro text hcompile
    exact (file?_delivered hplain rfl hcompile).1
  · rw [hcheck, hbuild]
    exact stderr_verdict_eq rfl rfl
  · intro rejection hcompile
    rw [hcheck, stderr_verdict_of_error (check source options) hcompile,
      advice_eq]
    rfl
  · intro n hpath hpath' hlimit hadvises
    have hoptions : (⟨options.limit, true⟩ : Options) = options := by
      rw [← hadvises]
    rw [ofArguments?_check hpath hlimit,
      ofArguments?_build hpath hpath' hlimit, hoptions]
    exact ⟨rfl, rfl⟩
  · intro word rest loud quiet hloud hquiet
    rw [eq_quiet_of_ofArguments? hloud hquiet]
    exact execute_quiet loud t
  · intro directory rest full hline hline' hsmooth'
    cases eq_build_of_ofArguments? hline hline'
    obtain ⟨hfull, hreplays⟩ :=
      execute_of_smooth (build source output (some directory) options) hsource
        hsmooth'
    refine ⟨?_, ?_⟩
    · rw [hfull, hbuild]
      rfl
    cases hcompile : compile options.limit script with
    | ok text =>
      rw [(file?_delivered hreplays rfl hcompile).2,
        (file?_delivered hplain rfl hcompile).2]
      exact .inl rfl
    | error rejection =>
      have hkept : ((build source output none options).execute t).2.file?
          (t.placeOf output) = t.file? (t.placeOf output) :=
        file?_of_rejected hplain hcompile _ nofun
      rw [hkept]
      by_cases hsame : t.placeOf output = t.placeOf (tokensPath directory)
      · cases rejection with
        | scan fault =>
          exact .inl (file?_of_rejected hreplays hcompile _ nofun)
        | read fault => exact .inr ⟨⟨fault, rfl⟩, hsame⟩
      · refine .inl (file?_of_rejected hreplays hcompile _ ?_)
        intro directory' fault hi _
        cases hi
        exact Ne.symm hsame

/-- A script beside a directory for its intermediate results, with a file at
    the place of the tokens. -/
def crowded (script : String) : FileTree where
  nodes := [(["a.herc"], .file (.text script)), (["d"], .directory),
    (["tokens.json", "d"], .file (.text "old"))]
  home := []

/-- The output is the file of an intermediate result, and still holds the
    text in the end. -/
theorem agreement_shared :
    let t := crowded "start:\nsay \"hi\"\nend\n"
    let program : Program := ⟨[.start [.say [.literal "hi"] "\\n"]]⟩
    let plain := build "a.herc" "d/ast.json" none ⟨10000, true⟩
    let quiet := build "a.herc" "d/ast.json" none ⟨10000, false⟩
    let full := build "a.herc" "d/ast.json" (some "d") ⟨10000, true⟩
    t.readText (.ofString "a.herc") = .ok "start:\nsay \"hi\"\nend\n" ∧
    (plain.watch t).2.Smooth ∧ (full.watch t).2.Smooth ∧
    ((check "a.herc" ⟨10000, true⟩).execute t).1.exitCode = 0 ∧
    (plain.execute t).2.readText (.ofString "d/ast.json") =
      .ok program.text ∧
    (quiet.execute t).1.Quietens (plain.execute t).1 ∧
    (full.execute t).1 = (plain.execute t).1 ∧
    (full.execute t).2.file? (t.placeOf "d/ast.json") =
      (plain.execute t).2.file? (t.placeOf "d/ast.json") := by
  intro t program plain quiet full
  have hsource : t.readText (.ofString "a.herc") =
    .ok "start:\nsay \"hi\"\nend\n" := rfl
  obtain ⟨tokens, hscan, hread⟩ : ∃ tokens,
      Token.ofScript "start:\nsay \"hi\"\nend\n" = .ok tokens ∧
        Program.ofTokens 10000 tokens = .ok program :=
    ⟨[⟨.keyword .start, "start", 1⟩, ⟨.symbol, ":", 1⟩, ⟨.newline, "\n", 1⟩,
      ⟨.keyword .say, "say", 2⟩, ⟨.literal, "hi", 2⟩, ⟨.newline, "\n", 2⟩,
      ⟨.keyword .close, "end", 3⟩, ⟨.newline, "\n", 3⟩, ⟨.endOfInput, "", 3⟩],
      by decide +kernel, rfl⟩
  have hcompile := compile_of_read_ok hscan hread
  have hplain : (plain.watch t).2.Smooth := by
    apply smooth_of_replays plain hsource
    simp only [plan, deliveries, plain, options, hcompile, dumps, hscan, hread]
    exact .cons rfl .nil
  have hfull : (full.watch t).2.Smooth := by
    apply smooth_of_replays full hsource
    simp only [plan, deliveries, full, options, hcompile, dumps, hscan, hread]
    exact .cons rfl (.cons rfl (.cons rfl (.cons rfl .nil)))
  have hagree :=
    agreement t "a.herc" "d/ast.json" _ ⟨10000, true⟩ hsource hplain
  obtain ⟨hresult, hfile⟩ := hagree.dumped "d" ["a.herc", "d/ast.json"] full
    (by decide) (by decide) hfull
  obtain ⟨hquietens, -⟩ := hagree.quiet "build" ["a.herc", "d/ast.json"] plain
    quiet (by decide) (by decide)
  refine ⟨hsource, hplain, hfull, hagree.check_exitCode.mpr ⟨_, hcompile⟩,
    hagree.delivered _ hcompile, hquietens, hresult, ?_⟩
  obtain hfile | ⟨⟨fault, hfault⟩, -⟩ := hfile
  · exact hfile
  · rw [hcompile] at hfault
    cases hfault

/-- The tokens of a rejected script stay where the output was to be, although
    no run meets a fault. -/
theorem output_holds_tokens :
    let t := crowded "function\n"
    let tokens : List Token := [⟨.keyword .function, "function", 1⟩,
      ⟨.newline, "\n", 1⟩, ⟨.endOfInput, "", 1⟩]
    let plain := build "a.herc" "d/tokens.json" none ⟨10000, true⟩
    let full := build "a.herc" "d/tokens.json" (some "d") ⟨10000, true⟩
    ofArguments? ["build", "a.herc", "d/tokens.json"] = some plain ∧
    ofArguments? ["build", "--emit-intermediates", "d", "a.herc",
      "d/tokens.json"] = some full ∧
    t.readText (.ofString "a.herc") = .ok "function\n" ∧
    (plain.watch t).2.Smooth ∧ (full.watch t).2.Smooth ∧
    (plain.execute t).2.file? (t.placeOf "d/tokens.json") =
      some (.text "old") ∧
    (full.execute t).2.file? (t.placeOf "d/tokens.json") =
      some (.text (Token.listToJson tokens).pretty) ∧
    (Token.listToJson tokens).pretty ≠ "old" := by
  intro t tokens plain full
  have hsource : t.readText (.ofString "a.herc") = .ok "function\n" := rfl
  have hscan : Token.ofScript "function\n" = .ok tokens := by decide +kernel
  have hread : Program.ofTokens 10000 tokens =
    .error (.expected .functionName "end of line" 1) := rfl
  have hcompile := compile_of_read_error hscan hread
  have hplain : Replays t ((plain.plan "function\n").map Task.done) t := by
    simp only [plan, deliveries, plain, options, hcompile, dumps, hscan, hread]
    exact .nil
  have hfull : (full.plan "function\n").map Task.done =
      [⟨.makeDirs "d", .ok ()⟩] ++ [⟨.writeText "d/tokens.json"
        (Token.listToJson tokens).pretty, .ok ()⟩] := by
    simp only [plan, deliveries, full, options, hcompile, dumps, hscan, hread]
    rfl
  have hsmooth : (plain.watch t).2.Smooth :=
    smooth_of_replays plain hsource hplain
  have hsmooth' : (full.watch t).2.Smooth := by
    apply smooth_of_replays full hsource
    rw [hfull]
    exact .cons rfl (.cons rfl .nil)
  have hkept : (plain.execute t).2 = t :=
    (execute_of_smooth plain hsource hsmooth).2.unique hplain
  have hwritten := (execute_of_smooth full hsource hsmooth').2
  rw [hfull] at hwritten
  refine ⟨by decide, by decide, hsource, hsmooth, hsmooth', ?_,
    hwritten.of_last.2, by decide⟩
  rw [hkept]
  rfl

end Command

end SayScript
