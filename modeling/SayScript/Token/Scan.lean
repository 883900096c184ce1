import SayScript.Text.Lines
import SayScript.Token.Basic

/-! # From text to tokens

    A line that says something is cut into lexemes, which lose no character
    of it: words, quoted texts, marks, and single characters of no meaning
    (blanks among them).  Each lexeme but the last kind becomes a token, and
    a newline token ends the line.  Blank lines and comments leave no token;
    the whole list ends with one end-of-input token.

    The one fault is a quote that no other quote on its line answers. -/

namespace SayScript

/-- A piece of a line. -/
inductive Lexeme where
  | word (text : List Char)
  /-- The text between two quotes. -/
  | quoted (text : List Char)
  | mark (c : Char)
  /-- A character that means nothing. -/
  | noise (c : Char)
  deriving DecidableEq, Repr

namespace Lexeme

/-- Can the character start a word? -/
def isWordStart (c : Char) : Bool :=
  c.isAlpha || c = '_'

/-- Can the character go on a word? -/
def isWordPart (c : Char) : Bool :=
  c.isAlphanum || c = '_'

/-- Is the character a mark? -/
def isMark (c : Char) : Bool :=
  c ∈ [':', '=', '(', ')', ',']

/-- The characters of the lexeme as they stand in the line. -/
def spelling : Lexeme → List Char
  | word text => text
  | quoted text => '"' :: text ++ ['"']
  | mark c => [c]
  | noise c => [c]

/-- The token a lexeme on the given line stands for. -/
def token? (line : Nat) : Lexeme → Option Token
  | word text =>
    let kind := match Keyword.ofSpelling? (String.ofList text) with
      | some k => .keyword k
      | none => .identifier
    some { kind, text := String.ofList text, line }
  | quoted text => some { kind := .literal, text := String.ofList text, line }
  | mark c => some { kind := .symbol, text := String.singleton c, line }
  | noise _ => none

/-- Cuts a line into lexemes, words as long as they can be.  There is no cut
    when a quote is left open. -/
def split? : List Char → Option (List Lexeme)
  | [] => some []
  | c :: cs =>
    if c = '"' then
      match _h : cs.dropWhile (· ≠ '"') with
      | [] => none
      | _ :: rest => (split? rest).map (quoted (cs.takeWhile (· ≠ '"')) :: ·)
    else if isWordStart c then
      (split? (cs.dropWhile isWordPart)).map
        (word (c :: cs.takeWhile isWordPart) :: ·)
    else if isMark c then
      (split? cs).map (mark c :: ·)
    else
      (split? cs).map (noise c :: ·)
termination_by cs => cs.length
decreasing_by
  · have shorter := (List.dropWhile_suffix (l := cs) (· ≠ '"')).length_le
    simp_all only [List.length_cons]
    omega
  · have shorter := (List.dropWhile_suffix (l := cs) isWordPart).length_le
    simp_all only [List.length_cons]
    omega
  · simp
  · simp

end Lexeme

/-- Why a script has no tokens: the line with an unanswered quote. -/
structure ScanFault where
  line : Nat
  deriving DecidableEq, Repr

namespace ScanFault

/-- What is wrong, without the place. -/
def problem : String :=
  "unterminated string literal"

/-- The message for the fault. -/
def message (f : ScanFault) : String :=
  s!"line {f.line}: " ++ problem

end ScanFault

namespace Token

/-- The tokens of one line with its number. -/
def ofLine (line : List Char) (number : Nat) :
    Except ScanFault (List Token) :=
  match Text.content? line with
  | none => .ok []
  | some content =>
    match Lexeme.split? content with
    | none => .error ⟨number⟩
    | some lexemes =>
      .ok (lexemes.filterMap (Lexeme.token? number) ++ [newline number])

/-- The tokens of a list of lines, which are numbered.  The first line with a
    fault decides. -/
def ofLines (lines : List (List Char)) : Except ScanFault (List Token) := do
  let tokens ← (Text.numbered lines).mapM fun (line, number) =>
    ofLine line number
  return tokens.flatten ++ [endOfInput (Text.lineNumber lines.length)]

/-- The tokens of a script. -/
def ofScript (script : String) : Except ScanFault (List Token) :=
  ofLines (Text.lines script.toList)

end Token

end SayScript
