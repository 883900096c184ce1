import SayScript.Command.Run
import SayScript.Proofs.Files
import SayScript.Proofs.Numbering

/-! # What a run does, task by task

    Once the source is read, all that a run does to storage is settled by the
    script: it is a list of tasks, `Command.plan`, done in order up to the
    first that meets a fault.  Scanning and reading only decide how long the
    list is, so the steps of `Command.process` come apart into doing the
    tasks and accepting the result of `compile` (`process_eq`).

    On a tree of files a run can be watched: `FileTree.journaled` does the
    same as `FileTree.storage` and keeps a record of every use with its
    result.  `Command.Ends` lists the ways a run can end, and all that is
    proved about files and runs is read off it. -/

namespace SayScript

/-! ## Tasks -/

/-- A use of storage that can change it. -/
inductive Use where
  | makeDirs (path : String)
  | writeText (path text : String)
  deriving DecidableEq, Repr

/-- Makes the use of the given storage. -/
def Use.perform {m : Type → Type} (st : Storage m) :
    Use → m (Except StorageFault Unit)
  | makeDirs path => st.makeDirs path
  | writeText path text => st.writeText path text

/-- A use of storage with the words for its failure. -/
structure Task where
  use : Use
  context : Option String
  deriving DecidableEq, Repr

namespace Command

/-! ## Plans -/

/-- The path of the tokens among the intermediate results. -/
def tokensPath (directory : String) : String :=
  directory ++ "/" ++ "tokens.json"

/-- The path of the program among the intermediate results. -/
def programPath (directory : String) : String :=
  directory ++ "/" ++ "ast.json"

/-- The tasks of `prepare`. -/
def preparing (c : Command) : List Task :=
  match c.intermediates with
  | some directory =>
    [⟨.makeDirs directory, some ("cannot create directory " ++ directory)⟩]
  | none => []

/-- The tasks of `dump`. -/
def dumping (c : Command) (name : String) (value : Json) : List Task :=
  match c.intermediates with
  | some directory =>
    [⟨.writeText (directory ++ "/" ++ name) value.pretty, none⟩]
  | none => []

/-- The tasks that have to do with intermediate results. -/
def dumps (c : Command) (script : String) : List Task :=
  c.preparing ++
    match Token.ofScript script with
    | .error _ => []
    | .ok tokens =>
      c.dumping "tokens.json" (Token.listToJson tokens) ++
        match Program.ofTokens c.options.limit tokens with
        | .error _ => []
        | .ok program => c.dumping "ast.json" program.toJson

/-- The tasks of `deliver`. -/
def delivering (text : String) : Command → List Task
  | build _ output _ _ =>
    [⟨.writeText output text, some ("cannot write to output file " ++ output)⟩]
  | check _ _ => []

/-- The tasks at the end of a run. -/
def deliveries (c : Command) (script : String) : List Task :=
  match compile c.options.limit script with
  | .ok text => c.delivering text
  | .error _ => []

/-- All tasks of a run on a script, in order. -/
def plan (c : Command) (script : String) : List Task :=
  c.dumps script ++ c.deliveries script

/-- The line for standard output when all went well. -/
def closing : Command → String
  | build _ output _ _ => "Compilation successful: " ++ output ++ "\n"
  | check source _ => "No errors in " ++ source ++ "\n"

section Process

variable {m : Type → Type} [Monad m]

/-- Does tasks up to the first that fails. -/
def doAll (st : Storage m) : List Task → ExceptT RunFailure m Unit
  | [] => return
  | task :: rest => do
    access task.context (task.use.perform st)
    doAll st rest

variable (st : Storage m) (c : Command)

theorem accept_ok {ε α : Type} (script : String) (f : ε → Rejection) (a : α) :
    (c.accept script ((Except.ok a).mapError f) : ExceptT RunFailure m α) =
      pure a := rfl

theorem accept_error {ε α : Type} (script : String) (f : ε → Rejection)
    (e : ε) :
    (c.accept script ((Except.error e).mapError f) : ExceptT RunFailure m α) =
      c.accept script (.error (f e)) := rfl

variable [LawfulMonad m]

/-- Nothing follows a rejection. -/
theorem accept_error_bind {α β : Type} (script : String)
    (rejection : Rejection) (next : α → ExceptT RunFailure m β) :
    (c.accept script (.error rejection) >>= next) =
      c.accept script (.error rejection) := by
  apply ExceptT.ext
  simp [accept]

theorem doAll_append (tasks rest : List Task) :
    doAll st (tasks ++ rest) = (do doAll st tasks; doAll st rest) := by
  induction tasks with
  | nil => simp [doAll]
  | cons task tasks ih => simp [doAll, ih]

theorem doAll_singleton (task : Task) :
    doAll st [task] = access task.context (task.use.perform st) := by
  simp only [doAll]
  exact bind_pure _

theorem prepare_eq : c.prepare st = doAll st c.preparing := by
  unfold prepare preparing
  cases c.intermediates with
  | none => rfl
  | some directory =>
    rw [doAll_singleton]
    rfl

theorem dump_eq (name : String) (value : Json) :
    c.dump st name value = doAll st (c.dumping name value) := by
  unfold dump dumping
  cases c.intermediates with
  | none => rfl
  | some directory =>
    rw [doAll_singleton]
    rfl

theorem deliver_eq (text : String) :
    c.deliver st text =
      (do doAll st (c.delivering text); return c.closing) := by
  cases c with
  | build source output intermediates options =>
    rw [delivering, doAll_singleton]
    rfl
  | check source options =>
    rw [delivering, doAll, pure_bind]
    rfl

theorem produce_eq (script : String) :
    c.produce st script = (do
      doAll st (c.dumps script)
      c.accept script (compile c.options.limit script)) := by
  unfold produce dumps
  simp only [prepare_eq, dump_eq]
  cases hscan : Token.ofScript script with
  | error fault =>
    rw [compile_of_scan_error hscan]
    simp only [accept_error, accept_error_bind, List.append_nil]
  | ok tokens =>
    cases hread : Program.ofTokens c.options.limit tokens with
    | error fault =>
      rw [compile_of_read_error hscan hread]
      simp only [accept_ok, pure_bind, hread, accept_error, accept_error_bind,
        doAll_append, doAll, bind_assoc]
    | ok program =>
      rw [compile_of_read_ok hscan hread]
      simp only [accept_ok, pure_bind, hread, doAll_append, bind_assoc]
      rfl

/-- The tasks can all be done before the script is accepted: where it is
    rejected, none was left. -/
theorem process_eq (script : String) :
    c.process st script = (do
      doAll st (c.plan script)
      let _ ← c.accept script (compile c.options.limit script)
      return c.closing) := by
  unfold process plan deliveries
  rw [produce_eq]
  cases compile c.options.limit script with
  | error rejection =>
    simp only [bind_assoc, accept_error_bind, List.append_nil]
  | ok text =>
    have haccept : (c.accept script (.ok text) : ExceptT RunFailure m String) =
      pure text := rfl
    simp only [haccept, bind_assoc, pure_bind, deliver_eq, doAll_append]

end Process

end Command

/-! ## Watched storage -/

/-- A use of storage and how it went. -/
structure Event where
  use : Use
  result : Except StorageFault Unit

/-- The event that a task was done. -/
def Task.done (task : Task) : Event :=
  ⟨task.use, .ok ()⟩

/-- A tree of files with the uses that were made of it, in order. -/
structure Journal where
  tree : FileTree
  events : List Event

/-- The result of a use and the tree that it leaves. -/
def Use.on (use : Use) (t : FileTree) : Except StorageFault Unit × FileTree :=
  (use.perform FileTree.storage).run t

/-- Makes a use of the tree and notes it. -/
def Journal.note (use : Use) : StateM Journal (Except StorageFault Unit) := do
  let j ← get
  let (result, tree) := use.on j.tree
  set (⟨tree, j.events ++ [⟨use, result⟩]⟩ : Journal)
  return result

/-- A tree of files as storage that notes its uses. -/
def FileTree.journaled : Storage (StateM Journal) where
  readText path := do
    return (← get).tree.readText (.ofString path)
  makeDirs path := Journal.note (.makeDirs path)
  writeText path text := Journal.note (.writeText path text)

/-- The events take one tree to the other. -/
inductive Replays : FileTree → List Event → FileTree → Prop
  | nil {t : FileTree} : Replays t [] t
  | cons {t t' t'' : FileTree} {e : Event} {events : List Event} :
    e.use.on t = (e.result, t') → Replays t' events t'' →
      Replays t (e :: events) t''

section Replays

variable {t t' t'' : FileTree} {events events' : List Event}

theorem Replays.of_append (h : Replays t (events ++ events') t') :
    ∃ between, Replays t events between ∧ Replays between events' t' := by
  induction events generalizing t with
  | nil => exact ⟨t, .nil, h⟩
  | cons e events ih =>
    cases h with
    | cons hon hrest =>
      obtain ⟨between, hfirst, hsecond⟩ := ih hrest
      exact ⟨between, .cons hon hfirst, hsecond⟩

theorem Replays.unique (h : Replays t events t')
    (h' : Replays t events t'') : t' = t'' := by
  induction h with
  | nil =>
    cases h'
    rfl
  | cons hon _ ih =>
    cases h' with
    | cons hon' hrest =>
      rw [hon] at hon'
      cases hon'
      exact ih hrest

end Replays

namespace Command

/-- The result of a run that cannot read its source. -/
def unread (c : Command) (fault : StorageFault) : RunResult :=
  let context := "cannot open input file " ++ c.source
  ⟨1, "", (RunFailure.access (some context) fault).message⟩

/-- The result of a run that has read its source. -/
def conclude (c : Command) (script : String) :
    Except RunFailure String → RunResult
  | .ok line => ⟨0, line, advice c.options script⟩
  | .error failure => ⟨1, "", advice c.options script ++ failure.message⟩

/-- The result of a run in which storage has no fault. -/
def verdict (c : Command) (script : String) : RunResult :=
  c.conclude script (match compile c.options.limit script with
    | .ok _ => .ok c.closing
    | .error rejection =>
      .error (.rejected (rejection.report script (some c.source))))

theorem exitCode_verdict {c : Command} {script : String} :
    (c.verdict script).exitCode = 0 ↔
      ∃ text, compile c.options.limit script = .ok text := by
  unfold verdict
  cases compile c.options.limit script with
  | error rejection => simp [conclude]
  | ok text => simp [conclude]

/-- Doing tasks leads to these events and this outcome. -/
inductive Carried : List Task → List Event → Except RunFailure Unit → Prop
  /-- All are done. -/
  | finished (tasks : List Task) : Carried tasks (tasks.map Task.done) (.ok ())
  /-- One fails, and those after it are not begun. -/
  | stopped (before : List Task) (task : Task) (after : List Task)
      (fault : StorageFault) :
    Carried (before ++ task :: after)
      (before.map Task.done ++ [⟨task.use, .error fault⟩])
      (.error (.access task.context fault))

theorem Carried.cons {task : Task} {tasks : List Task} {events : List Event}
    {outcome : Except RunFailure Unit} (h : Carried tasks events outcome) :
    Carried (task :: tasks) (task.done :: events) outcome := by
  cases h with
  | finished => exact .finished (task :: tasks)
  | stopped before failed after fault =>
    exact .stopped (task :: before) failed after fault

theorem perform_journaled (use : Use) (j : Journal) :
    (use.perform FileTree.journaled).run j =
      ((use.on j.tree).1,
        ⟨(use.on j.tree).2, j.events ++ [⟨use, (use.on j.tree).1⟩]⟩) := by
  cases use <;> rfl

section Stateful

variable {σ : Type} (st : Storage (StateM σ))

theorem run_access {α : Type} (context : Option String)
    (action : StateM σ (Except StorageFault α)) (s : σ) :
    ((access context action).run).run s =
      match action.run s with
      | (.ok a, s') => (.ok a, s')
      | (.error fault, s') => (.error (.access context fault), s') := by
  unfold access
  simp only [ExceptT.run_bind, StateT.run_bind, StateT.run_map, liftM,
    monadLift, MonadLift.monadLift, ExceptT.run_lift]
  cases action.run s with
  | mk result s' => cases result <;> rfl

/-- The first task is done, and then the others or none. -/
theorem run_doAll_cons (task : Task) (tasks : List Task) (s : σ) :
    ((doAll st (task :: tasks)).run).run s =
      match (task.use.perform st).run s with
      | (.ok (), s') => ((doAll st tasks).run).run s'
      | (.error fault, s') => (.error (.access task.context fault), s') := by
  simp only [doAll, ExceptT.run_bind, StateT.run_bind, run_access]
  cases (task.use.perform st).run s with
  | mk result s' => cases result <;> rfl

/-- When all tasks are done, the script decides. -/
theorem run_process (c : Command) (script : String) (s : σ) :
    ((c.process st script).run).run s =
      match ((doAll st (c.plan script)).run).run s with
      | (.ok (), s') =>
        (match compile c.options.limit script with
          | .ok _ => .ok c.closing
          | .error rejection =>
            .error (.rejected (rejection.report script (some c.source))), s')
      | (.error failure, s') => (.error failure, s') := by
  simp only [process_eq, ExceptT.run_bind, StateT.run_bind]
  cases ((doAll st (c.plan script)).run).run s with
  | mk outcome s' =>
    cases outcome with
    | error failure => rfl
    | ok _ =>
      cases compile c.options.limit script with
      | error rejection => rfl
      | ok text => rfl

theorem run_run (c : Command) (s : σ) :
    (c.run st).run s =
      match (st.readText c.source).run s with
      | (.error fault, s') => (c.unread fault, s')
      | (.ok script, s') =>
        match ((c.process st script).run).run s' with
        | (outcome, s'') => (c.conclude script outcome, s'') := by
  simp only [run, StateT.run_bind]
  cases (st.readText c.source).run s with
  | mk result s' =>
    cases result with
    | error fault => rfl
    | ok script =>
      show StateT.run ((c.process st script).run >>= _) s' =
        match ((c.process st script).run).run s' with
        | (outcome, s'') => (c.conclude script outcome, s'')
      rw [StateT.run_bind]
      cases ((c.process st script).run).run s' with
      | mk outcome s'' => cases outcome <;> rfl

end Stateful

theorem doAll_journaled (tasks : List Task) (j : Journal) :
    ∃ events outcome tree,
      ((doAll FileTree.journaled tasks).run).run j =
        (outcome, ⟨tree, j.events ++ events⟩) ∧
      ((doAll FileTree.storage tasks).run).run j.tree = (outcome, tree) ∧
      Replays j.tree events tree ∧ Carried tasks events outcome := by
  induction tasks generalizing j with
  | nil =>
    refine ⟨[], .ok (), j.tree, ?_, rfl, .nil, .finished []⟩
    rw [List.append_nil]
    rfl
  | cons task tasks ih =>
    have hplain : (task.use.perform FileTree.storage).run j.tree =
      task.use.on j.tree := rfl
    rw [run_doAll_cons, run_doAll_cons, perform_journaled, hplain]
    cases hon : task.use.on j.tree with
    | mk result tree =>
      cases result with
      | error fault =>
        refine ⟨[⟨task.use, .error fault⟩], _, tree, rfl, rfl,
          .cons hon .nil, .stopped [] task tasks fault⟩
      | ok done =>
        obtain ⟨events, outcome, tree', hrun, hrun', hreplays, hcarried⟩ :=
          ih ⟨tree, j.events ++ [task.done]⟩
        rw [List.append_assoc] at hrun
        exact ⟨task.done :: events, outcome, tree', hrun, hrun',
          .cons hon hreplays, hcarried.cons⟩

/-- The result of a run on a tree of files and the tree that it leaves. -/
def execute (c : Command) (t : FileTree) : RunResult × FileTree :=
  (c.run FileTree.storage).run t

/-- The result of a run and its journal. -/
def watch (c : Command) (t : FileTree) : RunResult × Journal :=
  (c.run FileTree.journaled).run ⟨t, []⟩

/-- The ways a run can end. -/
inductive Ends (c : Command) (t : FileTree) : RunResult → Journal → Prop
  /-- The source cannot be read. -/
  | unread {fault : StorageFault} :
    t.readText (.ofString c.source) = .error fault →
      Ends c t (c.unread fault) ⟨t, []⟩
  /-- A task fails. -/
  | stopped {script : String} {before after : List Task} {task : Task}
      {fault : StorageFault} {tree : FileTree} :
    t.readText (.ofString c.source) = .ok script →
    c.plan script = before ++ task :: after →
    Replays t (before.map Task.done ++ [⟨task.use, .error fault⟩]) tree →
      Ends c t (c.conclude script (.error (.access task.context fault)))
        ⟨tree, before.map Task.done ++ [⟨task.use, .error fault⟩]⟩
  /-- All tasks are done. -/
  | finished {script : String} {tree : FileTree} :
    t.readText (.ofString c.source) = .ok script →
    Replays t ((c.plan script).map Task.done) tree →
      Ends c t (c.verdict script) ⟨tree, (c.plan script).map Task.done⟩

/-- Every run ends in one of these ways, and watching changes nothing. -/
theorem ends_run (c : Command) (t : FileTree) :
    Ends c t (c.watch t).1 (c.watch t).2 ∧
      c.execute t = ((c.watch t).1, (c.watch t).2.tree) := by
  have hread : (FileTree.storage.readText c.source).run t =
    (t.readText (.ofString c.source), t) := rfl
  have hread' : (FileTree.journaled.readText c.source).run ⟨t, []⟩ =
    (t.readText (.ofString c.source), ⟨t, []⟩) := rfl
  rw [execute, watch, run_run, run_run, hread, hread']
  cases hsource : t.readText (.ofString c.source) with
  | error fault => exact ⟨.unread hsource, rfl⟩
  | ok script =>
    obtain ⟨events, outcome, tree, hrun, hrun', hreplays, hcarried⟩ :=
      doAll_journaled (c.plan script) ⟨t, []⟩
    simp only [run_process, hrun, hrun', List.nil_append]
    generalize hplan : c.plan script = tasks at hcarried
    cases hcarried with
    | finished =>
      rw [← hplan] at hreplays ⊢
      exact ⟨.finished hsource hreplays, rfl⟩
    | stopped before task after fault =>
      exact ⟨.stopped hsource hplan hreplays, rfl⟩

end Command

/-! ## Runs without faults -/

/-- No use met a fault. -/
def Journal.Smooth (j : Journal) : Prop :=
  ∀ e ∈ j.events, e.result = .ok ()

namespace Command

variable {c : Command} {t t' : FileTree} {script : String}
  {result : RunResult} {journal : Journal}

/-- Without faults all tasks are done, and only the script decides. -/
theorem Ends.of_smooth (h : Ends c t result journal)
    (hsource : t.readText (.ofString c.source) = .ok script)
    (hsmooth : journal.Smooth) :
    result = c.verdict script ∧
      Replays t ((c.plan script).map Task.done) journal.tree := by
  cases h with
  | unread hfault =>
    rw [hsource] at hfault
    cases hfault
  | stopped _ _ _ =>
    have hfault := hsmooth _ (List.mem_append_right _ List.mem_cons_self)
    cases hfault
  | finished hsource' hreplays =>
    cases hsource.symm.trans hsource'
    exact ⟨rfl, hreplays⟩

/-- A plan that can be done is done. -/
theorem watch_of_replays (c : Command)
    (hsource : t.readText (.ofString c.source) = .ok script)
    (h : Replays t ((c.plan script).map Task.done) t') :
    (c.watch t).2 = ⟨t', (c.plan script).map Task.done⟩ := by
  obtain ⟨hends, -⟩ := c.ends_run t
  generalize c.watch t = run at hends ⊢
  obtain ⟨result, journal⟩ := run
  cases hends with
  | unread hfault =>
    rw [hsource] at hfault
    cases hfault
  | @stopped script' before after task fault tree hsource' hplan hstopped =>
    cases hsource.symm.trans hsource'
    rw [hplan, List.map_append] at h
    obtain ⟨between, hfirst, hsecond⟩ := h.of_append
    obtain ⟨between', hfirst', hsecond'⟩ := hstopped.of_append
    cases hfirst.unique hfirst'
    -- the task has one result
    cases hsecond with
    | cons hon _ =>
      cases hsecond' with
      | cons hon' _ =>
        cases (congrArg Prod.fst hon).symm.trans (congrArg Prod.fst hon')
  | finished hsource' hfinished =>
    cases hsource.symm.trans hsource'
    cases h.unique hfinished
    rfl

theorem smooth_of_replays (c : Command)
    (hsource : t.readText (.ofString c.source) = .ok script)
    (h : Replays t ((c.plan script).map Task.done) t') :
    (c.watch t).2.Smooth := by
  intro e hmem
  rw [watch_of_replays c hsource h] at hmem
  obtain ⟨task, -, rfl⟩ := List.mem_map.mp hmem
  rfl

theorem execute_of_smooth (c : Command)
    (hsource : t.readText (.ofString c.source) = .ok script)
    (hsmooth : (c.watch t).2.Smooth) :
    (c.execute t).1 = c.verdict script ∧
      Replays t ((c.plan script).map Task.done) (c.execute t).2 := by
  obtain ⟨hends, hexecute⟩ := c.ends_run t
  rw [hexecute]
  exact hends.of_smooth hsource hsmooth

end Command

end SayScript
