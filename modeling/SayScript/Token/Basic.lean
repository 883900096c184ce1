/-! # Tokens

    The units a script is read in.  A token keeps its kind, its text and the
    line it stands on; the kind alone decides how it is read, so a token
    whose text does not fit its kind is still a token. -/

namespace SayScript

/-- The words with a meaning of their own. -/
inductive Keyword where
  | function
  | start
  /-- `end`, which closes a block. -/
  | close
  /-- `if`. -/
  | when
  /-- `elif`. -/
  | whenElse
  /-- `else`. -/
  | otherwise
  | say
  | set
  | add
  | minus
  | multiply
  | divide
  deriving DecidableEq, Repr

namespace Keyword

/-- How the keyword is written in a script. -/
def spelling : Keyword → String
  | function => "function"
  | start => "start"
  | close => "end"
  | when => "if"
  | whenElse => "elif"
  | otherwise => "else"
  | say => "say"
  | set => "set"
  | add => "add"
  | minus => "minus"
  | multiply => "multiply"
  | divide => "divide"

/-- All keywords. -/
def all : List Keyword :=
  [function, start, close, when, whenElse, otherwise, say, set, add, minus,
   multiply, divide]

/-- The keyword with the given spelling. -/
def ofSpelling? (word : String) : Option Keyword :=
  all.find? fun k => k.spelling = word

/-- Is the keyword set aside for later use?  No statement starts with it. -/
def isReserved : Keyword → Bool
  | when | whenElse | otherwise | add | minus | multiply | divide => true
  | function | start | close | say | set => false

end Keyword

/-- What a token is. -/
inductive Token.Kind where
  | keyword (k : Keyword)
  | identifier
  /-- A quoted text. -/
  | literal
  /-- A punctuation mark. -/
  | symbol
  /-- The end of a line that says something. -/
  | newline
  | endOfInput
  deriving DecidableEq, Repr

/-- A token: its kind, its text and the number of its line. -/
structure Token where
  kind : Token.Kind
  /-- For a literal, what stands between the quotes. -/
  text : String
  line : Nat
  deriving DecidableEq, Repr

namespace Token

/-- The token that ends a line. -/
def newline (line : Nat) : Token :=
  { kind := .newline, text := "\n", line }

/-- The token that ends the input. -/
def endOfInput (line : Nat) : Token :=
  { kind := .endOfInput, text := "", line }

/-- Is the token the given keyword? -/
def isKeyword (t : Token) (k : Keyword) : Bool :=
  t.kind = .keyword k

/-- Is the token the given mark?  Marks are ASCII characters, and no other
    character is ever recognised as one. -/
def isSymbol (t : Token) (c : Char) : Bool :=
  t.kind = .symbol && t.text = String.singleton c && c.toNat < 128

/-- How the token is named in messages. -/
def describe (t : Token) : String :=
  match t.kind with
  | .newline => "end of line"
  | .endOfInput => "end of input"
  | .literal => "\"" ++ t.text ++ "\""
  | .keyword _ | .identifier | .symbol => "`" ++ t.text ++ "`"

end Token

end SayScript
