import SayScript.Command.Arguments
import SayScript.Json.Dump
import SayScript.Layout
import SayScript.Report.Drawing
import SayScript.Storage

/-! # Running a command

    A run reads the source, gives advice on its layout, and then makes the
    directory for intermediate results, scans, writes the tokens, reads,
    writes the program, and writes the output, in this order.  It ends with
    the first of these that fails, and what was written before stays. -/

namespace SayScript

/-- What a run leaves behind besides files. -/
structure RunResult where
  exitCode : Nat
  stdout : String
  stderr : String
  deriving DecidableEq, Repr

/-- Why a run failed. -/
inductive RunFailure where
  /-- A file or directory could not be used; `context` says for what. -/
  | access (context : Option String) (fault : StorageFault)
  /-- The script was rejected. -/
  | rejected (report : Report)
  deriving DecidableEq, Repr

/-- What is written to standard error about a failure. -/
def RunFailure.message : RunFailure → String
  | access (some context) fault =>
    "Error: " ++ context ++ "\n\nCaused by:\n    " ++ fault.cause ++ "\n"
  | access none fault => "Error: " ++ fault.cause ++ "\n"
  | rejected report => report.draw ++ "\n"

namespace Command

/-- The path of the script. -/
def source : Command → String
  | build source _ _ _ => source
  | check source _ => source

/-- The options. -/
def options : Command → Options
  | build _ _ _ options => options
  | check _ options => options

/-- The directory for intermediate results. -/
def intermediates : Command → Option String
  | build _ _ intermediates _ => intermediates
  | check _ _ => none

/-- The advice on a script, as it is written to standard error. -/
def advice (options : Options) (script : String) : String :=
  if options.advises then
    Text.unlines ((Layout.advise script).map ("warning: " ++ ·.message))
  else
    ""

variable {m : Type → Type} [Monad m]

/-- Uses storage; a fault ends the run. -/
def access {α : Type} (context : Option String)
    (action : m (Except StorageFault α)) : ExceptT RunFailure m α := do
  match ← action with
  | .ok a => return a
  | .error fault => throw (.access context fault)

/-- Takes a result of scanning or reading; a rejection ends the run. -/
def accept {α : Type} (c : Command) (script : String)
    (result : Except Rejection α) : ExceptT RunFailure m α :=
  match result with
  | .ok a => return a
  | .error rejection =>
    throw (.rejected (rejection.report script (some c.source)))

/-- Makes the directory for intermediate results, if they are asked for. -/
def prepare (st : Storage m) (c : Command) : ExceptT RunFailure m Unit :=
  match c.intermediates with
  | some directory =>
    access (some ("cannot create directory " ++ directory))
      (st.makeDirs directory)
  | none => return

/-- Writes an intermediate result, if they are asked for. -/
def dump (st : Storage m) (c : Command) (name : String) (value : Json) :
    ExceptT RunFailure m Unit :=
  match c.intermediates with
  | some directory =>
    access none (st.writeText (directory ++ "/" ++ name) value.pretty)
  | none => return

/-- The C++ text of the script. -/
def produce (st : Storage m) (c : Command) (script : String) :
    ExceptT RunFailure m String := do
  c.prepare st
  let tokens ← c.accept script ((Token.ofScript script).mapError .scan)
  c.dump st "tokens.json" (Token.listToJson tokens)
  let program ← c.accept script
    ((Program.ofTokens c.options.limit tokens).mapError .read)
  c.dump st "ast.json" program.toJson
  return program.text

/-- Does what is left once the C++ text is there, and gives the line for
    standard output. -/
def deliver (st : Storage m) (text : String) :
    Command → ExceptT RunFailure m String
  | build _ output _ _ => do
    access (some ("cannot write to output file " ++ output))
      (st.writeText output text)
    return "Compilation successful: " ++ output ++ "\n"
  | check source _ => return "No errors in " ++ source ++ "\n"

/-- Everything after the source has been read. -/
def process (st : Storage m) (c : Command) (script : String) :
    ExceptT RunFailure m String := do
  c.deliver st (← c.produce st script)

/-- Runs a command. -/
def run (st : Storage m) (c : Command) : m RunResult := do
  match ← st.readText c.source with
  | .error fault =>
    let context := "cannot open input file " ++ c.source
    let failure := RunFailure.access (some context) fault
    return { exitCode := 1, stdout := "", stderr := failure.message }
  | .ok script =>
    let warnings := advice c.options script
    match ← (c.process st script).run with
    | .ok line => return { exitCode := 0, stdout := line, stderr := warnings }
    | .error failure =>
      return { exitCode := 1, stdout := "",
               stderr := warnings ++ failure.message }

end Command

end SayScript
