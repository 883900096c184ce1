import SayScript.Program.Basic
import SayScript.Target.Basic

/-! # From programs to the C++ model

    Functions and start blocks at top level become the definitions of a
    source file, in their order; every other statement at top level is
    dropped.  Inside a block every statement is kept. -/

namespace SayScript

/-- An operand as a C++ value. -/
def Operand.lower : Operand → Target.Value
  | literal text => .text text
  | var name => .name name

namespace Statement

mutual

/-- A statement as a C++ statement.  The default terminator becomes a line
    end, any other one is printed like a fragment. -/
def lower : Statement → Target.Statement
  | say fragments terminator =>
    if terminator = defaultTerminator then
      .print (fragments.map Operand.lower) true
    else
      .print (fragments.map Operand.lower ++ [.text terminator]) false
  | set name => .declareZero name
  | call callee argument => .call callee (argument.map Operand.lower)
  | function name parameter body => .function name parameter (lowerAll body)
  | start body => .main (lowerAll body)

/-- A list of statements as C++ statements. -/
def lowerAll : List Statement → List Target.Statement
  | [] => []
  | s :: rest => s.lower :: lowerAll rest

end

/-- The C++ function for a function definition. -/
def lowerFunction? : Statement → Option Target.Function
  | function name parameter body =>
    some { name, parameter, body := lowerAll body }
  | _ => none

/-- The `main` for a start block. -/
def lowerStart? : Statement → Option Target.EntryPoint
  | start body => some { body := lowerAll body }
  | _ => none

end Statement

/-- The source file for a program, to which its functions are added one after
    the other and then its start blocks. -/
def Program.lower (p : Program) : Target.Module :=
  let functions := p.functions.filterMap Statement.lowerFunction?
  let entryPoints := p.starts.filterMap Statement.lowerStart?
  entryPoints.foldl .addEntryPoint (functions.foldl .addFunction .empty)

end SayScript
