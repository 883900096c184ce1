import SayScript.Command.Run
import SayScript.FileTree.Path

/-! # The program

    Runs the command given by the arguments on the files of the machine. -/

namespace SayScript

/-- What went wrong with a file, as far as it makes a difference.  Some calls
    report the system's number for the error negated. -/
def StorageFault.ofError : IO.Error → StorageFault
  | .noFileOrDirectory .. => .notFound
  | .alreadyExists .. => .alreadyExists
  | .inappropriateType _ code _ =>
    if code = 21 ∨ code = 0 - 21 then .isDirectory else .notDirectory
  | e => .other (toString e)

/-- Does something with files and keeps the fault, if there is one. -/
def guarded {α : Type} (action : IO α) : IO (Except StorageFault α) := do
  try
    return .ok (← action)
  catch e =>
    return .error (.ofError e)

/-- Makes the first of some directories, each of which lies in the next,
    and those further out that are missing. -/
def makeNestedDirs : List Path → IO (Except StorageFault Unit)
  | [] => return .ok ()
  | p :: outer => do
    let settle (fault : StorageFault) := do
      -- only a directory has a part "."
      match ← guarded (IO.FS.realPath (p.text ++ "/.")) with
      | .ok _ => return .ok ()
      | .error _ => return .error fault
    match ← guarded (IO.FS.createDir p.text) with
    | .ok () => return .ok ()
    | .error .notFound =>
      match ← makeNestedDirs outer with
      | .error fault => return .error fault
      | .ok () =>
        match ← guarded (IO.FS.createDir p.text) with
        | .ok () => return .ok ()
        | .error fault => settle fault
    | .error fault => settle fault

/-- The files of the machine. -/
def Storage.disk : Storage IO where
  readText path := do
    match ← guarded (IO.FS.readBinFile path) with
    | .error fault => return .error fault
    | .ok bytes =>
      match String.fromUTF8? bytes with
      | some text => return .ok text
      | none => return .error .notText
  makeDirs path := makeNestedDirs (Path.ofString path).ancestors
  writeText path text := guarded (IO.FS.writeFile path text)

/-- What is said about arguments that make no command. -/
def usage : String :=
  "usage: build SOURCE OUTPUT [--emit-intermediates DIR] " ++
    "[--max-block-statements N] [--no-indent-check]\n" ++
  "       check SOURCE [--max-block-statements N] [--no-indent-check]\n"

end SayScript

open SayScript in
/-- Runs the command and ends with its exit code, or with 2 if the arguments
    make no command. -/
def main (args : List String) : IO UInt32 := do
  match Command.ofArguments? args with
  | none =>
    IO.eprint usage
    return 2
  | some command =>
    let result ← command.run Storage.disk
    IO.print result.stdout
    IO.eprint result.stderr
    return result.exitCode.toUInt32
