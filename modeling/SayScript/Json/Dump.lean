import SayScript.Json.Basic
import SayScript.Program.Basic
import SayScript.Token.Basic

/-! # Tokens and programs as JSON

    The form in which intermediate results are written for other tools. -/

namespace SayScript

/-- The name of a keyword in JSON: its spelling with a capital. -/
def Keyword.jsonName (k : Keyword) : String :=
  k.spelling.capitalize

namespace Token

/-- A kind: a text, or an object that names the keyword. -/
def Kind.toJson : Kind → Json
  | keyword k => .object [("Keyword", .text k.jsonName)]
  | identifier => .text "Identifier"
  | literal => .text "StringLiteral"
  | symbol => .text "Symbol"
  | newline => .text "Newline"
  | endOfInput => .text "EndOfInput"

/-- A token with its three fields. -/
def toJson (t : Token) : Json :=
  .object
    [("kind", t.kind.toJson), ("text", .text t.text), ("line", .number t.line)]

/-- A list of tokens. -/
def listToJson (ts : List Token) : Json :=
  .array (ts.map toJson)

end Token

/-- An operand: an object with one field, named for what the operand is. -/
def Operand.toJson : Operand → Json
  | literal text => .object [("Literal", .text text)]
  | var name => .object [("Variable", .text name)]

namespace Statement

mutual

/-- A statement: an object with one field, named for the form of the
    statement. -/
def toJson : Statement → Json
  | say fragments terminator =>
    .object [("Say", .object
      [("fragments", .array (fragments.map Operand.toJson)),
       ("terminator", .text terminator)])]
  | set name => .object [("Set", .object [("name", .text name)])]
  | call callee argument =>
    .object [("Call", .object
      [("callee", .text callee),
       ("argument", (argument.map Operand.toJson).getD .null)])]
  | function name parameter body =>
    .object [("FunctionDef", .object
      [("name", .text name),
       ("parameter", (parameter.map Json.text).getD .null),
       ("body", .array (listToJson body))])]
  | start body =>
    .object [("StartBlock", .object [("body", .array (listToJson body))])]

/-- The statements of a list, one by one. -/
def listToJson : List Statement → List Json
  | [] => []
  | s :: rest => s.toJson :: listToJson rest

end

end Statement

/-- A program with its statements. -/
def Program.toJson (p : Program) : Json :=
  .object [("statements", .array (Statement.listToJson p.statements))]

end SayScript
