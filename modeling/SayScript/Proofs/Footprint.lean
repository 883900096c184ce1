import SayScript.Proofs.Plans

/-! # Which files a run writes

    A watched run (`Command.watch`) has a journal of what it did, so what was
    written can be told from what only stayed the same.  Files change where
    the journal notes a write (`Replays.get?`), the journal holds what the
    plan asks for up to some point (`Ends.exists_done`), and what a plan asks
    for is seen from the command and the script (`mem_dumps`,
    `mem_deliveries`).

    `Command.footprint` puts these together: `build` writes the tokens, the
    program and the output, each only after what comes before it went well,
    and nothing else, and `check` writes nothing.  A run that fails leaves
    its output alone, but for one thing: if there was no output, the way to
    the intermediate results can be made through its place. -/

namespace SayScript

/-! ## What is written where -/

section Replays

variable {t t' : FileTree} {use : Use} {result : Except StorageFault Unit}
  {events : List Event}

theorem Use.on_writeText (path text : String) (t : FileTree) :
    (Use.writeText path text).on t =
      match t.writeText (.ofString path) text with
      | .ok written => (.ok (), written)
      | .error fault => (.error fault, t) := by
  simp only [Use.on, Use.perform, FileTree.storage, StateT.run_bind,
    StateT.run_get, pure_bind]
  cases t.writeText (.ofString path) text <;> rfl

/-- What one use can do to a tree. -/
theorem Use.on_cases (h : use.on t = (result, t')) :
    (∃ path, use = .makeDirs path ∧
        t.Grows ((Path.ofString path).LeadsThrough t.home) t') ∨
      ∃ path text, use = .writeText path text ∧
        ((∃ fault, result = .error fault) ∧ t' = t ∨
          result = .ok () ∧ t.writeText (.ofString path) text = .ok t') := by
  cases use with
  | makeDirs path =>
    have htree : t' = (t.makeDirs (.ofString path)).1 :=
      (congrArg Prod.snd h).symm
    exact .inl ⟨path, rfl, htree ▸ t.grows_makeDirs (.ofString path)⟩
  | writeText path text =>
    refine .inr ⟨path, text, rfl, ?_⟩
    rw [Use.on_writeText] at h
    cases hwrite : t.writeText (.ofString path) text with
    | error fault =>
      rw [hwrite] at h
      cases h
      exact .inl ⟨⟨fault, rfl⟩, rfl⟩
    | ok written =>
      rw [hwrite] at h
      cases h
      exact .inr ⟨rfl, rfl⟩

theorem Use.home_on (h : use.on t = (result, t')) : t'.home = t.home := by
  obtain ⟨path, -, hgrows⟩ | ⟨path, text, -, ⟨-, rfl⟩ | ⟨-, hwrite⟩⟩ :=
    Use.on_cases h
  · exact hgrows.home
  · rfl
  · obtain ⟨-, -, -, rfl⟩ := FileTree.writeText_eq_ok hwrite
    rfl

theorem Replays.home (h : Replays t events t') : t'.home = t.home := by
  induction h with
  | nil => rfl
  | cons hon _ ih => exact ih.trans (Use.home_on hon)

/-- Where nothing is written, all stays, except that directories can be made
    where nothing is. -/
theorem Replays.get? (h : Replays t events t') (place : Place)
    (hwrites : ∀ path text, ⟨.writeText path text, .ok ()⟩ ∈ events →
      t.placeOf path ≠ place) :
    t'.get? place = t.get? place ∨
      t.get? place = none ∧ t'.get? place = some .directory ∧
        ∃ e ∈ events, ∃ path, e.use = .makeDirs path ∧
          (Path.ofString path).LeadsThrough t.home place := by
  induction h with
  | nil => exact .inl rfl
  | @cons t t₁ t₂ e events hon hreplays ih =>
    have hrest := ih (by
      intro path text hmem
      rw [FileTree.placeOf, Use.home_on hon]
      exact hwrites path text (List.mem_cons_of_mem e hmem))
    rw [Use.home_on hon] at hrest
    -- a use that leaves the place alone adds nothing to what the others do
    have hsame : t₁.get? place = t.get? place →
        t₂.get? place = t.get? place ∨
          t.get? place = none ∧ t₂.get? place = some .directory ∧
            ∃ e' ∈ e :: events, ∃ path, e'.use = .makeDirs path ∧
              (Path.ofString path).LeadsThrough t.home place := by
      intro heq
      rw [heq] at hrest
      obtain hkept | ⟨hnone, hnew, e', hmem, hmake⟩ := hrest
      · exact .inl hkept
      · exact .inr ⟨hnone, hnew, e', List.mem_cons_of_mem e hmem, hmake⟩
    obtain ⟨path, huse, hgrows⟩ | ⟨path, text, huse, ⟨-, rfl⟩ | ⟨hok, hwrite⟩⟩ :=
      Use.on_cases hon
    · obtain heq | ⟨hway, hnone, hnew⟩ := hgrows.get? place
      · exact hsame heq
      · -- the directory is there, so nothing more can be made
        rw [hnew] at hrest
        obtain hkept | ⟨habsurd, -⟩ := hrest
        · exact .inr ⟨hnone, hkept, e, List.mem_cons_self, path, huse, hway⟩
        · cases habsurd
    · exact hsame rfl
    · obtain ⟨-, -, -, rfl⟩ := FileTree.writeText_eq_ok hwrite
      have he : e = ⟨.writeText path text, .ok ()⟩ := by
        obtain ⟨use, result⟩ := e
        cases huse
        cases hok
        rfl
      have hne : place ≠ t.placeOf path :=
        (hwrites path text (he ▸ List.mem_cons_self)).symm
      exact hsame (FileTree.get?_put_of_ne hne)

theorem Replays.file? (h : Replays t events t') (place : Place)
    (hwrites : ∀ path text, ⟨.writeText path text, .ok ()⟩ ∈ events →
      t.placeOf path ≠ place) :
    t'.file? place = t.file? place := by
  obtain hsame | ⟨hnone, hnew, -⟩ := h.get? place hwrites
  · exact FileTree.file?_of_get?_eq hsame
  · exact FileTree.file?_of_new hnone hnew

end Replays

namespace Command

variable {c : Command} {t : FileTree} {script path text directory : String}
  {task : Task} {before after : List Task} {result : RunResult}
  {journal : Journal} {use : Use}

/-! ## What a plan writes -/

/-- The file that `build` is for. -/
def output? : Command → Option String
  | build _ output _ _ => some output
  | check _ _ => none

theorem mem_preparing (h : task ∈ c.preparing) :
    ∃ directory, c.intermediates = some directory ∧
      task.use = .makeDirs directory := by
  unfold preparing at h
  cases hi : c.intermediates with
  | none =>
    rw [hi] at h
    cases h
  | some directory =>
    rw [hi] at h
    cases List.mem_singleton.mp h
    exact ⟨directory, rfl, rfl⟩

theorem mem_dumping {name : String} {value : Json}
    (h : task ∈ c.dumping name value) :
    ∃ directory, c.intermediates = some directory ∧
      task.use = .writeText (directory ++ "/" ++ name) value.pretty := by
  unfold dumping at h
  cases hi : c.intermediates with
  | none =>
    rw [hi] at h
    cases h
  | some directory =>
    rw [hi] at h
    cases List.mem_singleton.mp h
    exact ⟨directory, rfl, rfl⟩

theorem mem_deliveries (h : task ∈ c.deliveries script) :
    ∃ output program, c.output? = some output ∧
      Program.ofScript c.options.limit script = .ok program ∧
      task.use = .writeText output program.text := by
  unfold deliveries at h
  cases hcompile : compile c.options.limit script with
  | error rejection =>
    rw [hcompile] at h
    cases h
  | ok text =>
    rw [hcompile] at h
    obtain ⟨program, hread, rfl⟩ := compile_eq_ok hcompile
    cases c with
    | build source output intermediates options =>
      cases List.mem_singleton.mp h
      exact ⟨output, program, rfl, hread, rfl⟩
    | check source options => cases h

/-- A task for intermediate results makes their directory or writes one of
    them. -/
theorem mem_dumps (h : task ∈ c.dumps script) :
    ∃ directory, c.intermediates = some directory ∧
      (task.use = .makeDirs directory ∨
        (∃ tokens, Token.ofScript script = .ok tokens ∧
          task.use = .writeText (tokensPath directory)
            (Token.listToJson tokens).pretty) ∨
        ∃ program, Program.ofScript c.options.limit script = .ok program ∧
          task.use = .writeText (programPath directory)
            program.toJson.pretty) := by
  rw [dumps, List.mem_append] at h
  obtain h | h := h
  · obtain ⟨directory, hi, huse⟩ := mem_preparing h
    exact ⟨directory, hi, .inl huse⟩
  cases hscan : Token.ofScript script with
  | error fault =>
    rw [hscan] at h
    cases h
  | ok tokens =>
    simp only [hscan, List.mem_append] at h
    obtain h | h := h
    · obtain ⟨directory, hi, huse⟩ := mem_dumping h
      exact ⟨directory, hi, .inr (.inl ⟨tokens, rfl, huse⟩)⟩
    cases hread : Program.ofTokens c.options.limit tokens with
    | error fault =>
      rw [hread] at h
      cases h
    | ok program =>
      rw [hread] at h
      obtain ⟨directory, hi, huse⟩ := mem_dumping h
      have hprogram : Program.ofScript c.options.limit script = .ok program := by
        rw [Program.ofScript_of_tokens hscan, hread]
        rfl
      exact ⟨directory, hi, .inr (.inr ⟨program, hprogram, huse⟩)⟩

/-- A task that writes is for an intermediate result or for the output. -/
theorem mem_plan_writeText (h : task ∈ c.plan script)
    (huse : task.use = .writeText path text) :
    (∃ directory, c.intermediates = some directory ∧
        path = tokensPath directory ∧
        ∃ tokens, Token.ofScript script = .ok tokens) ∨
      ((∃ directory, c.intermediates = some directory ∧
          path = programPath directory) ∨ c.output? = some path) ∧
        ∃ program, Program.ofScript c.options.limit script = .ok program := by
  rw [plan, List.mem_append] at h
  obtain h | h := h
  · obtain ⟨directory, hi, h | ⟨tokens, hscan, h⟩ | ⟨program, hread, h⟩⟩ :=
      mem_dumps h
    · rw [huse] at h
      cases h
    · rw [huse] at h
      cases h
      exact .inl ⟨directory, hi, rfl, tokens, hscan⟩
    · rw [huse] at h
      cases h
      exact .inr ⟨.inl ⟨directory, hi, rfl⟩, program, hread⟩
  · obtain ⟨output, program, houtput, hread, h⟩ := mem_deliveries h
    rw [huse] at h
    cases h
    exact .inr ⟨.inr houtput, program, hread⟩

theorem mem_plan_makeDirs (h : task ∈ c.plan script)
    (huse : task.use = .makeDirs path) : c.intermediates = some path := by
  rw [plan, List.mem_append] at h
  obtain h | h := h
  · obtain ⟨directory, hi, h | ⟨_, _, h⟩ | ⟨_, _, h⟩⟩ := mem_dumps h
    · rw [huse] at h
      cases h
      exact hi
    · rw [huse] at h
      cases h
    · rw [huse] at h
      cases h
  · obtain ⟨_, _, _, _, h⟩ := mem_deliveries h
    rw [huse] at h
    cases h

theorem plan_check (source script : String) (options : Options) :
    (check source options).plan script = [] := by
  rw [List.eq_nil_iff_forall_not_mem]
  intro task h
  obtain h | h := List.mem_append.mp h
  · obtain ⟨_, hi, _⟩ := mem_dumps h
    cases hi
  · obtain ⟨_, _, houtput, _⟩ := mem_deliveries h
    cases houtput

theorem length_deliveries_le (c : Command) (script : String) :
    (c.deliveries script).length ≤ 1 := by
  unfold deliveries
  cases compile c.options.limit script with
  | error rejection => exact Nat.zero_le 1
  | ok text => cases c <;> simp [delivering]

/-- The output is the last thing to be written. -/
theorem mem_dumps_of_plan_eq (hplan : c.plan script = before ++ after)
    (hafter : after ≠ []) (h : task ∈ before) : task ∈ c.dumps script := by
  rw [plan] at hplan
  obtain ⟨rest, hbefore, hrest⟩ | ⟨rest, hdumps, -⟩ :=
    List.append_eq_append_iff.mp hplan
  · have hlength := length_deliveries_le c script
    have hpos : 0 < after.length := List.length_pos_iff.mpr hafter
    rw [hrest, List.length_append] at hlength
    have hnil : rest = [] := List.length_eq_zero_iff.mp (by omega)
    rwa [hbefore, hnil, List.append_nil] at h
  · rw [hdumps]
    exact List.mem_append_left rest h

/-! ## Journals of runs -/

theorem Ends.replays (h : Ends c t result journal) :
    Replays t journal.events journal.tree := by
  cases h with
  | unread _ => exact .nil
  | stopped _ _ hreplays => exact hreplays
  | finished _ hreplays => exact hreplays

/-- Every event comes from a task of the plan. -/
theorem Ends.exists_task (h : Ends c t result journal) {e : Event}
    (hmem : e ∈ journal.events) :
    ∃ script, ∃ task ∈ c.plan script, task.use = e.use := by
  cases h with
  | unread _ => cases hmem
  | @stopped script before after task fault tree _ hplan _ =>
    refine ⟨script, ?_⟩
    rw [hplan]
    rw [List.mem_append, List.mem_map, List.mem_singleton] at hmem
    obtain ⟨task', hmem', rfl⟩ | rfl := hmem
    · exact ⟨task', List.mem_append_left _ hmem', rfl⟩
    · exact ⟨task, List.mem_append_right _ List.mem_cons_self, rfl⟩
  | @finished script tree _ _ =>
    obtain ⟨task', hmem', rfl⟩ := List.mem_map.mp hmem
    exact ⟨script, task', hmem', rfl⟩

/-- What was done is what the plan asks for, up to some point. -/
theorem Ends.exists_done (h : Ends c t result journal)
    (hdone : ⟨use, .ok ()⟩ ∈ journal.events) :
    ∃ script before after, t.readText (.ofString c.source) = .ok script ∧
      c.plan script = before ++ after ∧
      (∃ task ∈ before, task.use = use) ∧
      (∀ task ∈ before, task.done ∈ journal.events) ∧
      (after = [] → result = c.verdict script) := by
  cases h with
  | unread _ => cases hdone
  | @stopped script before after task fault tree hsource hplan _ =>
    refine ⟨script, before, task :: after, hsource, hplan, ?_, ?_, nofun⟩
    · rw [List.mem_append, List.mem_map, List.mem_singleton] at hdone
      obtain ⟨task', hmem, hdone⟩ | hdone := hdone
      · cases hdone
        exact ⟨task', hmem, rfl⟩
      · cases hdone
    · intro task' hmem
      exact List.mem_append_left _ (List.mem_map_of_mem hmem)
  | @finished script tree hsource _ =>
    refine ⟨script, c.plan script, [], hsource, (List.append_nil _).symm,
      ?_, ?_, fun _ => rfl⟩
    · obtain ⟨task', hmem, hdone⟩ := List.mem_map.mp hdone
      cases hdone
      exact ⟨task', hmem, rfl⟩
    · intro task' hmem
      exact List.mem_map_of_mem hmem

/-- A part at the start of the plan was done, or what was done is in this
    part. -/
theorem forall_mem_or_of_plan_eq {tasks rest : List Task}
    (hplan : c.plan script = tasks ++ rest)
    (hbefore : c.plan script = before ++ after) :
    (∀ task ∈ tasks, task ∈ before) ∨ ∀ task ∈ before, task ∈ tasks := by
  rw [hplan] at hbefore
  obtain ⟨more, rfl, -⟩ | ⟨more, rfl, -⟩ :=
    List.append_eq_append_iff.mp hbefore
  · exact .inl fun task hmem => List.mem_append_left more hmem
  · exact .inr fun task hmem => List.mem_append_left more hmem

theorem preparing_of_some (hi : c.intermediates = some directory) :
    c.preparing = [⟨.makeDirs directory,
      some ("cannot create directory " ++ directory)⟩] := by
  rw [preparing, hi]

theorem dumping_of_some (hi : c.intermediates = some directory)
    (name : String) (value : Json) :
    c.dumping name value =
      [⟨.writeText (directory ++ "/" ++ name) value.pretty, none⟩] := by
  rw [dumping, hi]

/-- Nothing is written before there is a directory for intermediate results
    and the script is scanned. -/
theorem Ends.prepared (h : Ends c t result journal)
    (hi : c.intermediates = some directory)
    (hdone : ⟨.writeText path text, .ok ()⟩ ∈ journal.events) :
    ⟨.makeDirs directory, .ok ()⟩ ∈ journal.events ∧
      ∃ script tokens, t.readText (.ofString c.source) = .ok script ∧
        Token.ofScript script = .ok tokens := by
  obtain ⟨script, before, after, hsource, hbefore, ⟨task, hmem, huse⟩, hdid, -⟩ :=
    h.exists_done hdone
  have hplan : c.plan script = c.preparing ++ _ := List.append_assoc ..
  have hscan : ∃ tokens, Token.ofScript script = .ok tokens := by
    have hmem' : task ∈ c.plan script := hbefore ▸ List.mem_append_left after hmem
    obtain ⟨-, -, -, hscan⟩ | ⟨-, program, hread⟩ :=
      mem_plan_writeText hmem' huse
    · exact hscan
    · obtain ⟨tokens, hscan, -⟩ := Program.ofScript_eq_ok hread
      exact ⟨tokens, hscan⟩
  obtain ⟨tokens, hscan⟩ := hscan
  refine ⟨?_, script, tokens, hsource, hscan⟩
  obtain hfirst | hall := forall_mem_or_of_plan_eq hplan hbefore
  · rw [preparing_of_some hi] at hfirst
    exact hdid _ (hfirst _ List.mem_cons_self)
  · obtain ⟨_, _, hmake⟩ := mem_preparing (hall task hmem)
    rw [huse] at hmake
    cases hmake

/-- Nothing but the tokens is written before they are and the script is
    read. -/
theorem Ends.dumped (h : Ends c t result journal)
    (hi : c.intermediates = some directory)
    (hdone : ⟨.writeText path text, .ok ()⟩ ∈ journal.events)
    (hpath : path ≠ tokensPath directory) :
    (∃ text', ⟨.writeText (tokensPath directory) text', .ok ()⟩ ∈
        journal.events) ∧
      ∃ script program, t.readText (.ofString c.source) = .ok script ∧
        Program.ofScript c.options.limit script = .ok program := by
  obtain ⟨script, before, after, hsource, hbefore, ⟨task, hmem, huse⟩, hdid, -⟩ :=
    h.exists_done hdone
  have hread : ∃ program,
      Program.ofScript c.options.limit script = .ok program := by
    have hmem' : task ∈ c.plan script := hbefore ▸ List.mem_append_left after hmem
    obtain ⟨directory', hi', htokens, -⟩ | ⟨-, hread⟩ :=
      mem_plan_writeText hmem' huse
    · cases hi.symm.trans hi'
      exact absurd htokens hpath
    · exact hread
  obtain ⟨program, hread⟩ := hread
  obtain ⟨tokens, hscan, -⟩ := Program.ofScript_eq_ok hread
  refine ⟨⟨(Token.listToJson tokens).pretty, ?_⟩, script, program, hsource, hread⟩
  obtain ⟨rest, hplan⟩ : ∃ rest, c.plan script =
      c.preparing ++ c.dumping "tokens.json" (Token.listToJson tokens) ++
        rest := by
    simp only [plan, dumps, hscan, List.append_assoc]
    exact ⟨_, rfl⟩
  obtain hfirst | hall := forall_mem_or_of_plan_eq hplan hbefore
  · rw [preparing_of_some hi, dumping_of_some hi] at hfirst
    exact hdid _ (hfirst _ (List.mem_append_right _ List.mem_cons_self))
  · obtain hmem' | hmem' := List.mem_append.mp (hall task hmem)
    · obtain ⟨_, _, hmake⟩ := mem_preparing hmem'
      rw [huse] at hmake
      cases hmake
    · obtain ⟨directory', hi', hwrite⟩ := mem_dumping hmem'
      cases hi.symm.trans hi'
      rw [huse] at hwrite
      cases hwrite
      exact absurd rfl hpath

/-- A run that fails has written intermediate results at most. -/
theorem Ends.writes_of_failed (h : Ends c t result journal)
    (hexit : result.exitCode ≠ 0)
    (hdone : ⟨.writeText path text, .ok ()⟩ ∈ journal.events) :
    ∃ directory, c.intermediates = some directory ∧
      (path = tokensPath directory ∨ path = programPath directory) := by
  obtain ⟨script, before, after, -, hbefore, ⟨task, hmem, huse⟩, -, hverdict⟩ :=
    h.exists_done hdone
  have hdumps : task ∈ c.dumps script := by
    by_cases hafter : after = []
    · have hmem' : task ∈ c.plan script :=
        hbefore ▸ List.mem_append_left after hmem
      obtain hdumps | hdelivery := List.mem_append.mp hmem'
      · exact hdumps
      · -- with the output written, nothing is left that could fail
        obtain ⟨_, program, _, hread, _⟩ := mem_deliveries hdelivery
        have hcompile : compile c.options.limit script = .ok program.text := by
          rw [compile, hread]
          rfl
        rw [hverdict hafter] at hexit
        exact absurd (exitCode_verdict.mpr ⟨_, hcompile⟩) hexit
    · exact mem_dumps_of_plan_eq hbefore hafter hmem
  obtain ⟨directory, hi, h | ⟨_, _, h⟩ | ⟨_, _, h⟩⟩ := mem_dumps hdumps
  · rw [huse] at h
    cases h
  · rw [huse] at h
    cases h
    exact ⟨directory, hi, .inl rfl⟩
  · rw [huse] at h
    cases h
    exact ⟨directory, hi, .inr rfl⟩

theorem placeOf_tokensPath_ne (t : FileTree) (directory : String) :
    t.placeOf (tokensPath directory) ≠ t.placeOf (programPath directory) := by
  obtain ⟨outer, houter⟩ := Path.exists_target_join t.home directory
  have htokens : t.placeOf (tokensPath directory) = "tokens.json" :: outer :=
    houter "tokens.json" (by decide)
  have hprogram : t.placeOf (programPath directory) = "ast.json" :: outer :=
    houter "ast.json" (by decide)
  rw [htokens, hprogram]
  simp

end Command

/-! ## The result -/

namespace Journal

/-- A file was written at the place. -/
def Wrote (j : Journal) (place : Place) : Prop :=
  ∃ path text, ⟨.writeText path text, .ok ()⟩ ∈ j.events ∧
    j.tree.placeOf path = place

/-- The directory was made or found. -/
def Made (j : Journal) (directory : String) : Prop :=
  ⟨.makeDirs directory, .ok ()⟩ ∈ j.events

end Journal

namespace Command

/-- A directory has come up where there was nothing, at the directory for
    intermediate results or on the way to it. -/
def MakesWay (c : Command) (t t' : FileTree) (place : Place) : Prop :=
  t.get? place = none ∧ t'.get? place = some .directory ∧
    ∃ directory, c.intermediates = some directory ∧
      (Path.ofString directory).LeadsThrough t.home place

section Places

variable (h : Ends c t result journal)

include h

theorem Ends.placeOf (path : String) :
    journal.tree.placeOf path = t.placeOf path := by
  rw [FileTree.placeOf, h.replays.home, FileTree.placeOf]

/-- Where no file is written, only a new directory can be. -/
theorem Ends.get?_of_not_wrote {place : Place} (hwrote : ¬journal.Wrote place) :
    journal.tree.get? place = t.get? place ∨
      c.MakesWay t journal.tree place := by
  have hkept := h.replays.get? place (by
    intro path text hdone hplace
    exact hwrote ⟨path, text, hdone, (h.placeOf path).trans hplace⟩)
  obtain hsame | ⟨hnone, hnew, e, hmem, path, huse, hway⟩ := hkept
  · exact .inl hsame
  · obtain ⟨script, task, hmem', huse'⟩ := h.exists_task hmem
    have hi := mem_plan_makeDirs hmem' (huse'.trans huse)
    exact .inr ⟨hnone, hnew, path, hi, hway⟩

theorem Ends.wrote_of_file?_ne {place : Place}
    (hchanged : journal.tree.file? place ≠ t.file? place) :
    journal.Wrote place := by
  apply Classical.byContradiction
  intro hwrote
  obtain hsame | ⟨hnone, hnew, -⟩ := h.get?_of_not_wrote hwrote
  · exact hchanged (FileTree.file?_of_get?_eq hsame)
  · exact hchanged (FileTree.file?_of_new hnone hnew)

theorem Ends.mem_of_wrote {place : Place} (hwrote : journal.Wrote place) :
    (∃ output, c.output? = some output ∧ place = t.placeOf output) ∨
      ∃ directory, c.intermediates = some directory ∧
        (place = t.placeOf (tokensPath directory) ∨
          place = t.placeOf (programPath directory)) := by
  obtain ⟨path, text, hdone, rfl⟩ := hwrote
  rw [h.placeOf]
  obtain ⟨script, task, hmem, huse⟩ := h.exists_task hdone
  obtain ⟨directory, hi, rfl, -⟩ | ⟨⟨directory, hi, rfl⟩ | houtput, -⟩ :=
    mem_plan_writeText hmem huse
  · exact .inr ⟨directory, hi, .inl rfl⟩
  · exact .inr ⟨directory, hi, .inr rfl⟩
  · exact .inl ⟨path, houtput, rfl⟩

end Places

theorem Ends.events_of_check {source : String} {options : Options}
    (h : Ends (.check source options) t result journal) :
    journal.events = [] := by
  rw [List.eq_nil_iff_forall_not_mem]
  intro e hmem
  obtain ⟨script, task, hmem', -⟩ := h.exists_task hmem
  rw [plan_check] at hmem'
  cases hmem'

theorem Ends.tree_of_check {source : String} {options : Options}
    (h : Ends (.check source options) t result journal) : journal.tree = t := by
  have hreplays := h.replays
  rw [h.events_of_check] at hreplays
  cases hreplays
  rfl

/-- What a run with this result and this journal may do to files. -/
structure Footprint (c : Command) (t : FileTree) (result : RunResult)
    (journal : Journal) : Prop where
  /-- Watching the run changes nothing. -/
  execute : c.execute t = (result, journal.tree)
  /-- Things change only where files are written or directories are made. -/
  get? : ∀ place, journal.tree.get? place = t.get? place ∨
    journal.Wrote place ∨ c.MakesWay t journal.tree place
  /-- If its path has no `..`, the directory for intermediate results is at
      the place where a directory is made, or below it. -/
  below : ∀ directory place, c.intermediates = some directory →
    ".." ∉ (Path.ofString directory).parts →
    c.MakesWay t journal.tree place → place <:+ t.placeOf directory
  /-- `check` changes nothing. -/
  check : ∀ source options, c = .check source options → journal.tree = t
  /-- Only the output and intermediate results are written. -/
  written : ∀ place,
    journal.Wrote place ∨ journal.tree.file? place ≠ t.file? place →
    (∃ output, c.output? = some output ∧ place = t.placeOf output) ∨
      ∃ directory, c.intermediates = some directory ∧
        (place = t.placeOf (tokensPath directory) ∨
          place = t.placeOf (programPath directory))
  /-- A run that fails leaves the output as it was, unless there was nothing
      and the directory for intermediate results is there or goes through. -/
  output : ∀ output, c.output? = some output →
    (∀ directory, c.intermediates = some directory →
      t.placeOf output ≠ t.placeOf (tokensPath directory) ∧
      t.placeOf output ≠ t.placeOf (programPath directory)) →
    result.exitCode ≠ 0 →
    journal.tree.get? (t.placeOf output) = t.get? (t.placeOf output) ∨
      c.MakesWay t journal.tree (t.placeOf output)
  /-- The program is written after the tokens, if there is one. -/
  program : ∀ directory, c.intermediates = some directory →
    journal.Wrote (t.placeOf (programPath directory)) →
    journal.Wrote (t.placeOf (tokensPath directory)) ∧
      ∃ script program, t.readText (.ofString c.source) = .ok script ∧
        Program.ofScript c.options.limit script = .ok program
  /-- The tokens are written after there is a directory, if there are any. -/
  tokens : ∀ directory, c.intermediates = some directory →
    journal.Wrote (t.placeOf (tokensPath directory)) →
    journal.Made directory ∧
      ∃ script tokens, t.readText (.ofString c.source) = .ok script ∧
        Token.ofScript script = .ok tokens

/-- Every run keeps to its footprint. -/
theorem footprint (c : Command) (t : FileTree) :
    Footprint c t (c.watch t).1 (c.watch t).2 := by
  obtain ⟨hends, hexecute⟩ := c.ends_run t
  generalize c.watch t = run at hends hexecute ⊢
  refine ⟨hexecute, ?_, ?_, ?_, ?_, ?_, ?_, ?_⟩
  · intro place
    by_cases hwrote : run.2.Wrote place
    · exact .inr (.inl hwrote)
    · obtain hsame | hway := hends.get?_of_not_wrote hwrote
      · exact .inl hsame
      · exact .inr (.inr hway)
  · rintro directory place hi hup ⟨-, -, directory', hi', hway⟩
    cases hi.symm.trans hi'
    exact hway.suffix_target hup
  · rintro source options rfl
    exact hends.tree_of_check
  · rintro place (hwrote | hfile)
    · exact hends.mem_of_wrote hwrote
    · exact hends.mem_of_wrote (hends.wrote_of_file?_ne hfile)
  · intro output houtput hapart hexit
    -- a run that fails has written only what is apart from the output
    apply hends.get?_of_not_wrote
    rintro ⟨path, text, hdone, hplace⟩
    rw [hends.placeOf] at hplace
    obtain ⟨directory, hi, rfl | rfl⟩ := hends.writes_of_failed hexit hdone
    · exact (hapart directory hi).1 hplace.symm
    · exact (hapart directory hi).2 hplace.symm
  · rintro directory hi ⟨path, text, hdone, hplace⟩
    rw [hends.placeOf] at hplace
    have hpath : path ≠ tokensPath directory := by
      rintro rfl
      exact placeOf_tokensPath_ne t directory hplace
    obtain ⟨⟨text', htokens⟩, hread⟩ := hends.dumped hi hdone hpath
    exact ⟨⟨_, text', htokens, hends.placeOf _⟩, hread⟩
  · rintro directory hi ⟨path, text, hdone, -⟩
    exact hends.prepared hi hdone

/-- A script that cannot be scanned leaves a directory where the output was
    to be, since intermediate results were to go there too. -/
theorem directory_at_output :
    let t : FileTree := ⟨[(["a.herc"], .file (.text "\""))], []⟩
    let c := build "a.herc" "x" (some "x") ⟨10000, true⟩
    ofArguments? ["build", "a.herc", "x", "--emit-intermediates", "x"] =
      some c ∧
    t.placeOf "x" ≠ t.placeOf (tokensPath "x") ∧
    t.placeOf "x" ≠ t.placeOf (programPath "x") ∧
    (c.execute t).1.exitCode = 1 ∧
    t.get? (t.placeOf "x") = none ∧
    (c.execute t).2.get? (t.placeOf "x") = some .directory := by
  intro t c
  have hsource : t.readText (.ofString "a.herc") = .ok "\"" := rfl
  have hscan : Token.ofScript "\"" = .error ⟨1⟩ := by decide +kernel
  have hcompile : compile c.options.limit "\"" = .error (.scan ⟨1⟩) :=
    compile_of_scan_error hscan
  have hreplays : Replays t ((c.plan "\"").map Task.done)
      (t.put ["x"] .directory) := by
    simp only [plan, deliveries, dumps, hcompile, hscan]
    exact .cons rfl .nil
  obtain ⟨hresult, hreplays'⟩ :=
    execute_of_smooth c hsource (smooth_of_replays c hsource hreplays)
  refine ⟨by decide, by decide, by decide, ?_, by decide, ?_⟩
  · rw [hresult, verdict, hcompile]
    rfl
  · rw [hreplays'.unique hreplays]
    decide

end Command

end SayScript
