/-! # Programs

    What a script means: a list of statements, some of which are blocks that
    hold statements in turn. -/

namespace SayScript

/-- A value in a statement. -/
inductive Operand where
  | literal (text : String)
  | var (name : String)
  deriving DecidableEq, Repr

namespace Operand

/-- The text of a literal or the name of a variable. -/
def text : Operand → String
  | literal text => text
  | var name => name

/-- Is the operand a variable? -/
def isVariable : Operand → Bool
  | literal _ => false
  | var _ => true

end Operand

/-- A statement; functions and start blocks hold further ones. -/
inductive Statement where
  /-- Writes the fragments one after the other, then the terminator. -/
  | say (fragments : List Operand) (terminator : String)
  | set (name : String)
  | call (callee : String) (argument : Option Operand)
  | function (name : String) (parameter : Option String)
      (body : List Statement)
  /-- A block that runs when the program starts. -/
  | start (body : List Statement)
  deriving Repr

namespace Statement

/-- The terminator of a `say` that names none: a backslash and an `n`. -/
def defaultTerminator : String :=
  "\\n"

/-- Is the statement a function definition? -/
def isFunction : Statement → Bool
  | function .. => true
  | _ => false

/-- Is the statement a start block? -/
def isStart : Statement → Bool
  | start _ => true
  | _ => false

mutual

/-- The operands of a statement and of all statements in it, in the order of
    the script. -/
def operands : Statement → List Operand
  | say fragments _ => fragments
  | set _ => []
  | call _ argument => argument.toList
  | function _ _ body => operandsOf body
  | start body => operandsOf body

/-- The operands of a list of statements. -/
def operandsOf : List Statement → List Operand
  | [] => []
  | s :: rest => s.operands ++ operandsOf rest

end

end Statement

/-- A program: its statements at top level. -/
structure Program where
  statements : List Statement
  deriving Repr

namespace Program

/-- The function definitions at top level. -/
def functions (p : Program) : List Statement :=
  p.statements.filter Statement.isFunction

/-- The start blocks at top level. -/
def starts (p : Program) : List Statement :=
  p.statements.filter Statement.isStart

/-- All operands, in the order of the script. -/
def operands (p : Program) : List Operand :=
  Statement.operandsOf p.statements

end Program

end SayScript
