import SayScript.Program.Lower
import SayScript.Reader.Run
import SayScript.Target.Text
import SayScript.Token.Scan

/-! # From script to C++ text

    The whole way: scan, read, lower, write.  A script is rejected by the
    first of these that finds a fault. -/

namespace SayScript

/-- Why a script has no C++ text. -/
inductive Rejection where
  | scan (fault : ScanFault)
  | read (fault : ReadFault)
  deriving DecidableEq, Repr

namespace Rejection

/-- The line the fault is reported on. -/
def line : Rejection → Nat
  | scan fault => fault.line
  | read fault => fault.line

/-- The message of the fault itself. -/
def faultMessage : Rejection → String
  | scan fault => fault.message
  | read fault => fault.message

/-- The message, which also names the step that failed. -/
def message : Rejection → String
  | scan fault => "lex error: " ++ fault.message
  | read fault => "parse error: " ++ fault.message

end Rejection

/-- The program of a script. -/
def Program.ofScript (limit : Nat) (script : String) :
    Except Rejection Program :=
  match Token.ofScript script with
  | .error fault => .error (.scan fault)
  | .ok tokens => (Program.ofTokens limit tokens).mapError .read

/-- The C++ text of a program. -/
def Program.text (p : Program) : String :=
  p.lower.text

/-- The C++ text of a script. -/
def compile (limit : Nat) (script : String) : Except Rejection String :=
  (Program.ofScript limit script).map Program.text

end SayScript
