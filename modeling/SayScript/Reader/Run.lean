import SayScript.Reader.State

/-! # Reading a list of tokens

    A run feeds tokens to a reader until it stops.  When the tokens run out
    first, the reader is fed one end-of-input token more, on the line of the
    last token there was.

    A run leaves the tokens it did not use, and another run can go on with
    them: that is a session.  A session also counts how often a token was
    taken, the extra one included. -/

namespace SayScript

/-- The line that a list of tokens ends on. -/
def Token.lastLine (ts : List Token) : Nat :=
  match ts.getLast? with
  | some t => t.line
  | none => 0

/-- The default limit on the items of a block. -/
def Reader.defaultLimit : Nat :=
  10000

/-- How a run ended. -/
structure Reader.Outcome where
  result : Except ReadFault Program
  /-- The tokens not used. -/
  rest : List Token
  /-- How often a token was taken, so far. -/
  advances : Nat

namespace Reader

/-- Reads on from a state in which `advances` tokens had been taken.  The
    tokens end on line `lastLine`. -/
def run (limit lastLine : Nat) (r : Reader) (advances : Nat) :
    List Token → Outcome
  | [] =>
    match r.feed limit (.endOfInput lastLine) with
    | .stop result uses =>
      { result, rest := [], advances := advances + uses.toNat }
    | .next r =>
      { result := r.conclude limit lastLine, rest := [],
        advances := advances + 1 }
  | t :: ts =>
    match r.feed limit t with
    | .stop result true => { result, rest := ts, advances := advances + 1 }
    | .stop result false => { result, rest := t :: ts, advances }
    | .next r => r.run limit lastLine (advances + 1) ts

end Reader

/-- A reader's work on one list of tokens, in as many runs as one likes. -/
structure Session where
  limit : Nat
  /-- The line that the whole list ends on. -/
  lastLine : Nat
  /-- The tokens not used yet. -/
  rest : List Token
  /-- How often a token was taken. -/
  advances : Nat
  deriving Repr

namespace Session

/-- The session before its first run. -/
def start (limit : Nat) (ts : List Token) : Session :=
  { limit, lastLine := Token.lastLine ts, rest := ts, advances := 0 }

/-- One run from the start of a program. -/
def run (s : Session) : Reader.Outcome :=
  Reader.initial.run s.limit s.lastLine s.advances s.rest

/-- The session after its next run. -/
def advance (s : Session) : Session :=
  { s with rest := s.run.rest, advances := s.run.advances }

/-- The outcomes of the next `n` runs. -/
def outcomes (s : Session) : Nat → List Reader.Outcome
  | 0 => []
  | n + 1 => s.run :: s.advance.outcomes n

end Session

namespace Program

/-- Reads the first program of a list of tokens. -/
def read (limit : Nat) (ts : List Token) : Reader.Outcome :=
  (Session.start limit ts).run

/-- The program that a list of tokens starts with. -/
def ofTokens (limit : Nat) (ts : List Token) : Except ReadFault Program :=
  (read limit ts).result

end Program

end SayScript
