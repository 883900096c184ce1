import SayScript.Command.Arguments
import SayScript.Command.Run
import SayScript.Compile
import SayScript.FileTree.Basic
import SayScript.FileTree.Path
import SayScript.Json.Basic
import SayScript.Json.Dump
import SayScript.Layout
import SayScript.Main
import SayScript.Program.Basic
import SayScript.Program.Lower
import SayScript.Reader.Fault
import SayScript.Reader.Run
import SayScript.Reader.State
import SayScript.Report.Basic
import SayScript.Report.Drawing
import SayScript.Report.Span
import SayScript.Storage
import SayScript.Target.Basic
import SayScript.Target.Text
import SayScript.Text.Blank
import SayScript.Text.Lines
import SayScript.Token.Basic
import SayScript.Token.Scan
import SayScript.Proofs.Moves
import SayScript.Proofs.Nodes
import SayScript.Proofs.Runs
import SayScript.Proofs.Accounting
import SayScript.Proofs.Grammar
import SayScript.Proofs.Cuts
import SayScript.Proofs.Limits
import SayScript.Proofs.Numbering
import SayScript.Proofs.Lines
import SayScript.Proofs.Sessions
import SayScript.Proofs.Relabelling
import SayScript.Proofs.Spacing
import SayScript.Proofs.Concatenation
import SayScript.Proofs.LongScripts
import SayScript.Proofs.Printing
import SayScript.Proofs.Literals
import SayScript.Proofs.TargetText
import SayScript.Proofs.Lowering
import SayScript.Proofs.Spans
import SayScript.Proofs.Reports
import SayScript.Proofs.Files
import SayScript.Proofs.Footprint
import SayScript.Proofs.Options
import SayScript.Proofs.Agreement
import SayScript.Proofs.Pieces
import SayScript.Proofs.Quotes
import SayScript.Proofs.Normalizing
import SayScript.Proofs.Positions
import SayScript.Proofs.Faults
import SayScript.Proofs.Renaming
import SayScript.Proofs.Brackets
import SayScript.Proofs.Advice
import SayScript.Proofs.Closing
import SayScript.Proofs.Convention
import SayScript.Proofs.Strays
import SayScript.Proofs.TargetLayout
import SayScript.Proofs.CallSites
import SayScript.Proofs.Drawings
