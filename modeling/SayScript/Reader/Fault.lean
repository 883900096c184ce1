/-! # Faults of reading

    Why a list of tokens is no program.  Each fault knows the line it is
    reported on; the wording is apart, in `ReadFault.message`. -/

namespace SayScript

/-- A place in a statement that only certain tokens fit. -/
inductive Slot where
  /-- The name after `function`. -/
  | functionName
  /-- What follows the name of a function. -/
  | functionHead
  /-- The colon after a parameter. -/
  | parameterColon
  /-- The colon after `start`. -/
  | startColon
  /-- The equals sign after `end` in a `say`. -/
  | terminatorEquals
  /-- The literal after `end=`. -/
  | terminator
  /-- The name after `set`. -/
  | variableName
  deriving DecidableEq, Repr

namespace Slot

/-- What fits the place. -/
def expected : Slot → String
  | functionName => "function name"
  | functionHead => "`:` or a parameter name"
  | parameterColon => "`:`"
  | startColon => "`:`"
  | terminatorEquals => "`=`"
  | terminator => "a string literal"
  | variableName => "a variable name"

/-- Where the place is. -/
def context : Slot → String
  | functionName => "after `function`"
  | functionHead => "in function definition"
  | parameterColon => "after function parameter"
  | startColon => "after `start`"
  | terminatorEquals => "after `end` in say statement"
  | terminator => "after `end=`"
  | variableName => "after `set`"

end Slot

/-- Why tokens are no program.  Each fault ends with its line. -/
inductive ReadFault where
  /-- A token does not fit its place. -/
  | expected (slot : Slot) (found : String) (line : Nat)
  /-- A token cannot stand in a `say` statement. -/
  | unexpected (found : String) (line : Nat)
  /-- The input ends inside the block opened at the given line. -/
  | unclosedBlock (openedAt line : Nat)
  /-- A block holds more items than allowed. -/
  | blockLimit (limit line : Nat)
  deriving DecidableEq, Repr

namespace ReadFault

/-- The line the fault is reported on. -/
def line : ReadFault → Nat
  | expected _ _ line => line
  | unexpected _ line => line
  | unclosedBlock _ line => line
  | blockLimit _ line => line

/-- Is it a limit of the reader that was hit, rather than a rule of the
    language? -/
def isInternal : ReadFault → Bool
  | blockLimit .. => true
  | _ => false

/-- The statement in which a token can be unexpected. -/
def sayContext : String :=
  "say statement"

/-- What is wrong, without the place. -/
def problem : ReadFault → String
  | expected slot found _ =>
    "expected " ++ slot.expected ++ " " ++ slot.context ++ ", found " ++ found
  | unexpected found _ => "unexpected token " ++ found ++ " in " ++ sayContext
  | unclosedBlock openedAt _ =>
    s!"block opened at line {openedAt} is never closed with `end`"
  | blockLimit limit _ =>
    s!"block exceeded the internal limit of {limit} statements"

/-- The message for the fault. -/
def message (f : ReadFault) : String :=
  s!"line {f.line}: " ++ f.problem

end ReadFault

end SayScript
