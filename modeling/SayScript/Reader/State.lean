import SayScript.Program.Basic
import SayScript.Reader.Fault
import SayScript.Token.Basic

/-! # The reader, one token at a time

    A reader takes tokens from left to right and never goes back.  Between
    two tokens it remembers

    - the blocks that are open, innermost first, each with what was read of
      the level around it,
    - what was read of the current level, and
    - the statement it is in the middle of, if any.

    Each token either takes the reader to its next state or stops it; a
    token that stops the reader is not always used up.

    Tokens that can start no statement are skipped: every symbol, literal
    and reserved keyword, and an `end` outside all blocks.  Together with
    the statements they are the items of a level, and in a block the number
    of items is limited. -/

namespace SayScript

/-- How a block starts. -/
inductive Header where
  | function (name : String) (parameter : Option String)
  | start
  deriving DecidableEq, Repr

/-- The block with the given body. -/
def Header.block : Header → List Statement → Statement
  | function name parameter, body => .function name parameter body
  | start, body => .start body

/-- What was read of one level of nesting. -/
structure Level where
  /-- The statements, the last one first. -/
  statements : List Statement
  /-- The number of statements and skipped tokens. -/
  items : Nat
  deriving Repr

namespace Level

/-- A level of which nothing was read. -/
def empty : Level :=
  { statements := [], items := 0 }

/-- Adds a statement. -/
def push (l : Level) (s : Statement) : Level :=
  { statements := s :: l.statements, items := l.items + 1 }

/-- Counts a skipped token. -/
def skip (l : Level) : Level :=
  { l with items := l.items + 1 }

/-- The statements in the order of the script. -/
def body (l : Level) : List Statement :=
  l.statements.reverse

end Level

/-- A block whose `end` was not read yet. -/
structure OpenBlock where
  header : Header
  /-- The line of the keyword that starts the block. -/
  openedAt : Nat
  /-- What was read of the level around the block. -/
  outer : Level
  deriving Repr

/-- The statement a reader is in the middle of.  Lines are those of the
    statement's keyword, fragments stand with the last one first. -/
inductive Pending where
  /-- Between statements. -/
  | idle
  /-- After `function`. -/
  | function (line : Nat)
  /-- After `function` and a name. -/
  | functionName (line : Nat) (name : String)
  /-- After `function`, a name and a parameter. -/
  | functionParameter (line : Nat) (name parameter : String)
  /-- After `start`. -/
  | start (line : Nat)
  /-- In a `say`, where a comma can only follow a fragment. -/
  | say (fragments : List Operand) (afterFragment : Bool)
  /-- In a `say`, after `end`. -/
  | sayEnd (fragments : List Operand)
  /-- In a `say`, after `end` and the equals sign. -/
  | sayEquals (fragments : List Operand)
  /-- After `set`. -/
  | set
  /-- After the name of a callee. -/
  | call (callee : String)
  deriving DecidableEq, Repr

/-- The state of a reader. -/
structure Reader where
  pending : Pending
  /-- What was read of the current level. -/
  level : Level
  /-- The open blocks, innermost first. -/
  blocks : List OpenBlock
  deriving Repr

/-- What a token does to a reader. -/
inductive Reader.Step where
  /-- The token is used up and reading goes on. -/
  | next (r : Reader)
  /-- Reading stops, and the token is used up or left. -/
  | stop (result : Except ReadFault Program) (uses : Bool)

namespace Reader

/-- A reader at the start of a program. -/
def initial : Reader :=
  { pending := .idle, level := .empty, blocks := [] }

/-- Goes on with the given part of a statement. -/
def await (r : Reader) (pending : Pending) : Reader :=
  { r with pending }

/-- Completes a statement. -/
def complete (r : Reader) (s : Statement) : Reader :=
  { r with pending := .idle, level := r.level.push s }

/-- Skips a token between statements. -/
def skip (r : Reader) : Reader :=
  { r with level := r.level.skip }

/-- Enters a block. -/
def enter (r : Reader) (header : Header) (openedAt : Nat) : Reader :=
  { pending := .idle
    level := .empty
    blocks := { header, openedAt, outer := r.level } :: r.blocks }

/-- Closes the innermost block.  Outside all blocks, where there is nothing
    to close, the token is skipped. -/
def leave (r : Reader) : Reader :=
  match r.blocks with
  | [] => r.skip
  | b :: outer =>
    { pending := .idle
      level := b.outer.push (b.header.block r.level.body)
      blocks := outer }

/-- Does the current level hold more items than a block may? -/
def isOverfull (r : Reader) (limit : Nat) : Bool :=
  !r.blocks.isEmpty && limit < r.level.items

/-- What was read when the input ends between statements, on the given
    line. -/
def conclude (limit : Nat) (r : Reader) (line : Nat) :
    Except ReadFault Program :=
  if r.isOverfull limit then
    .error (.blockLimit limit line)
  else
    match r.blocks with
    | [] => .ok { statements := r.level.body }
    | b :: _ => .error (.unclosedBlock b.openedAt line)

/-- Stops at a token that does not fit its place; the token is used up. -/
def Step.misfit (slot : Slot) (t : Token) : Step :=
  .stop (.error (.expected slot t.describe t.line)) true

/-- The operand a token stands for. -/
def operand? (t : Token) : Option Operand :=
  match t.kind with
  | .literal => some (.literal t.text)
  | .identifier => some (.var t.text)
  | _ => none

/-- Takes a token between statements.  A block that grew too large stops the
    reader before anything else is looked at. -/
def begin (limit : Nat) (r : Reader) (t : Token) : Step :=
  if r.isOverfull limit then
    .stop (.error (.blockLimit limit t.line)) false
  else
    match t.kind with
    | .endOfInput => .stop (r.conclude limit t.line) false
    | .newline => .next r
    | .identifier => .next (r.await (.call t.text))
    | .keyword .function => .next (r.await (.function t.line))
    | .keyword .start => .next (r.await (.start t.line))
    | .keyword .say => .next (r.await (.say [] false))
    | .keyword .set => .next (r.await .set)
    | .keyword .close => .next r.leave
    | .keyword _ | .literal | .symbol => .next r.skip

/-- Takes a token in a `say` statement.  The end of the line or of the input
    completes it and is used up. -/
def continueSay (r : Reader) (fragments : List Operand) (afterFragment : Bool)
    (t : Token) : Step :=
  if afterFragment && t.isSymbol ',' then
    .next (r.await (.say fragments false))
  else
    match t.kind with
    | .keyword .close => .next (r.await (.sayEnd fragments))
    | .newline | .endOfInput =>
      .next (r.complete (.say fragments.reverse Statement.defaultTerminator))
    | .literal => .next (r.await (.say (.literal t.text :: fragments) true))
    | .identifier =>
      .next (r.await (.say (.var t.text :: fragments) true))
    | .keyword _ | .symbol =>
      .stop (.error (.unexpected t.describe t.line)) false

/-- Takes one token. -/
def feed (limit : Nat) (r : Reader) (t : Token) : Step :=
  match r.pending with
  | .idle => r.begin limit t
  | .function line =>
    if t.kind = .identifier then
      .next (r.await (.functionName line t.text))
    else
      .misfit .functionName t
  | .functionName line name =>
    if t.isSymbol ':' then
      .next (r.enter (.function name none) line)
    else if t.kind = .identifier then
      .next (r.await (.functionParameter line name t.text))
    else
      .misfit .functionHead t
  | .functionParameter line name parameter =>
    if t.isSymbol ':' then
      .next (r.enter (.function name (some parameter)) line)
    else
      .misfit .parameterColon t
  | .start line =>
    if t.isSymbol ':' then .next (r.enter .start line)
    else .misfit .startColon t
  | .say fragments afterFragment => r.continueSay fragments afterFragment t
  | .sayEnd fragments =>
    if t.isSymbol '=' then .next (r.await (.sayEquals fragments))
    else .misfit .terminatorEquals t
  | .sayEquals fragments =>
    if t.kind = .literal then
      .next (r.complete (.say fragments.reverse t.text))
    else
      .misfit .terminator t
  | .set =>
    if t.kind = .identifier then .next (r.complete (.set t.text))
    else .misfit .variableName t
  | .call callee =>
    match operand? t with
    | some argument => .next (r.complete (.call callee (some argument)))
    | none => (r.complete (.call callee none)).begin limit t

end Reader

end SayScript
