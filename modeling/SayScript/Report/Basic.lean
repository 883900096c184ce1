import SayScript.Compile
import SayScript.Report.Span

/-! # Reports

    What a user is told about a rejected script: a code, the stage that
    rejected it, a message, and labels that point at lines of the source.
    Notes and a help text can follow. -/

namespace SayScript

/-- The stage of the work a report is about. -/
inductive Stage where
  | tokenize
  | parse
  | internal
  deriving DecidableEq, Repr

/-- The name of a stage. -/
def Stage.name : Stage → String
  | tokenize => "tokenize"
  | parse => "parse"
  | internal => "internal"

/-- A message about a part of the source. -/
structure Label where
  span : Span
  message : String
  deriving DecidableEq, Repr

/-- What a user is told. -/
structure Report where
  code : String
  stage : Stage
  message : String
  /-- How the source is called. -/
  fileId : String
  source : String
  labels : List Label
  notes : List String
  help : Option String
  deriving DecidableEq, Repr

namespace Report

/-- How a source is called: by its path, if it has one. -/
def fileIdOf (path : Option String) : String :=
  path.getD "<memory>"

/-- A report without a source, labels, notes and help. -/
def new (code : String) (stage : Stage) (message : String) : Report where
  code := code
  stage := stage
  message := message
  fileId := fileIdOf none
  source := ""
  labels := []
  notes := []
  help := none

/-- Sets the source.  Labels there are already stay as they are. -/
def withSource (r : Report) (fileId source : String) : Report :=
  { r with fileId, source }

/-- The start of a message about a line. -/
def lineTag (line : Nat) : String :=
  s!"line {line}:"

/-- Adds a label for a line of the source.  Its message names the line, and
    does so only once. -/
def withLineLabel (r : Report) (line : Nat) (message : String) : Report :=
  let tag := lineTag line
  let message :=
    if tag.toList.isPrefixOf message.toList then message
    else tag ++ " " ++ message
  let label := { span := .ofLine r.source.toList line, message }
  { r with labels := r.labels ++ [label] }

/-- Adds a note. -/
def withNote (r : Report) (note : String) : Report :=
  { r with notes := r.notes ++ [note] }

/-- Sets the help text. -/
def withHelp (r : Report) (help : String) : Report :=
  { r with help := some help }

end Report

namespace Rejection

/-- The stage that rejected the script.  A limit of the reader is no fault
    of the script's. -/
def stage : Rejection → Stage
  | scan _ => .tokenize
  | read fault => if fault.isInternal then .internal else .parse

/-- What a user could do about it. -/
def help? : Rejection → Option String
  | read (.unclosedBlock openedAt _) =>
    some s!"add `end` to close the block opened at line {openedAt}"
  | read (.blockLimit limit _) =>
    some s!"raise --max-block-statements above {limit} or split the block"
  | _ => none

/-- The report on the rejection of a source. -/
def report (r : Rejection) (source : String) (path : Option String) : Report :=
  let base := match r.stage with
    | .tokenize =>
      Report.new "HERC-TOKENIZE-001" .tokenize "tokenization failed"
    | .parse => Report.new "HERC-PARSE-001" .parse "parse failed"
    | .internal =>
      Report.new "HERC-ICE-001" .internal "internal compiler error"
  let labelled :=
    (base.withSource (Report.fileIdOf path) source).withLineLabel r.line
      r.faultMessage
  match r.help? with
  | some help => labelled.withHelp help
  | none => labelled

end Rejection

end SayScript
