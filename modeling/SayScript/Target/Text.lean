import SayScript.Text.Lines
import SayScript.Target.Basic

/-! # C++ text

    How the C++ model is written.  A definition starts in the first column
    whatever its depth; the statements in it are indented by their depth.

    In a string literal a quote and a backslash are written with a backslash
    before them, and every other character stands for itself. -/

namespace SayScript.Target

/-- A character of a string literal, as it is written. -/
def escapeChar (c : Char) : List Char :=
  if c = '"' ∨ c = '\\' then ['\\', c] else [c]

/-- The content of a string literal, as it is written. -/
def escape (content : String) : String :=
  String.ofList (content.toList.flatMap escapeChar)

/-- A value, as it is written. -/
def Value.source : Value → String
  | text content => "\"" ++ escape content ++ "\""
  | name n => n

/-- The blanks before a statement at the given depth. -/
def indent (depth : Nat) : String :=
  String.ofList (List.replicate (4 * depth) ' ')

/-- The line that opens a function. -/
def functionHead (name : String) (parameter : Option String) : String :=
  "void " ++ name ++ "(" ++
    (match parameter with
      | some p => "auto " ++ p
      | none => "") ++
    ") \x7b"

/-- The lines that open `main`.  On one system the console has to be told
    which encoding to expect. -/
def mainHead : List String :=
  ["int main() \x7b", "#ifdef _WIN32", "SetConsoleOutputCP(CP_UTF8);",
   "#endif", ""]

/-- The line that closes a definition. -/
def closing : String :=
  "\x7d"

namespace Statement

mutual

/-- The lines of a statement at the given depth. -/
def lines (depth : Nat) : Statement → List String
  | print values lineEnd =>
    [indent depth ++ "std::cout" ++
      String.join (values.map fun v => " << " ++ v.source) ++
      (if lineEnd then " << std::endl" else "") ++ ";"]
  | declareZero name => [indent depth ++ "auto " ++ name ++ " = 0;"]
  | call callee argument =>
    [indent depth ++ callee ++ "(" ++
      (match argument with
        | some v => v.source
        | none => "") ++ ");"]
  | function name parameter body =>
    functionHead name parameter :: linesOf (depth + 1) body ++ [closing]
  | main body =>
    mainHead ++ linesOf (depth + 1) body ++
      [indent (depth + 1) ++ "return 0;", closing]

/-- The lines of a list of statements at the given depth. -/
def linesOf (depth : Nat) : List Statement → List String
  | [] => []
  | s :: rest => s.lines depth ++ linesOf depth rest

end

end Statement

/-- The lines of a function outside all others. -/
def Function.lines (f : Function) : List String :=
  (Statement.function f.name f.parameter f.body).lines 0

/-- The lines of a `main` outside all other definitions. -/
def EntryPoint.lines (e : EntryPoint) : List String :=
  (Statement.main e.body).lines 0

namespace Module

/-- The lines every source file starts with. -/
def preamble : List String :=
  ["#include <iostream>", "#include <string>", "", "#ifdef _WIN32",
   "#include <windows.h>", "#endif", ""]

/-- The lines of a source file: the functions, then each `main`, with an
    empty line after each. -/
def lines (m : Module) : List String :=
  preamble ++ m.functions.flatMap (fun f => f.lines ++ [""]) ++
    m.entryPoints.flatMap (fun e => e.lines ++ [""])

/-- The text of a source file. -/
def text (m : Module) : String :=
  Text.unlines m.lines

end Module

end SayScript.Target
