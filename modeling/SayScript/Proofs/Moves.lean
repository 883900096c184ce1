import SayScript.Reader.Run

/-! # What a token does to a reader

    `Reader.feed` is said once more as a relation: `Moves limit r t q` holds
    when the token `t` is used up and takes the reader `r` to `q`.  It has
    one constructor for each kind of move and is all that later results need
    to know about `feed`, so that what a run keeps is proved move by move.

    A call is the one statement that ends before its last token is seen: it
    is complete when the next token is no operand.  `Settles r t q` covers
    that: `q` is the reader that stands between statements when `t` is
    looked at.

    `Stops limit r t result uses` is the other half: the token stops the
    reader with a result, and is used up or left.  No token does both, and
    each does one of the two. -/

namespace SayScript

/-- Can the token start no statement, and close none either? -/
def Token.isStray (t : Token) : Bool :=
  match t.kind with
  | .keyword k => k.isReserved
  | .literal | .symbol => true
  | .identifier | .newline | .endOfInput => false

/-- The block that a colon opens now, and the line it is opened at. -/
def Pending.header? : Pending → Option (Header × Nat)
  | functionName line name => some (.function name none, line)
  | functionParameter line name parameter =>
    some (.function name (some parameter), line)
  | start line => some (.start, line)
  | _ => none

/-- The place that the next token has to fit; a reader between statements or
    in a list of operands has none. -/
def Pending.slot? : Pending → Option Slot
  | function _ => some .functionName
  | functionName .. => some .functionHead
  | functionParameter .. => some .parameterColon
  | start _ => some .startColon
  | sayEnd _ => some .terminatorEquals
  | sayEquals _ => some .terminator
  | set => some .variableName
  | idle | say .. | call _ => none

/-- Does the token fit the place? -/
def Slot.fits (t : Token) : Slot → Bool
  | functionName | variableName => t.kind = .identifier
  | functionHead => t.isSymbol ':' || t.kind = .identifier
  | parameterColon | startColon => t.isSymbol ':'
  | terminatorEquals => t.isSymbol '='
  | terminator => t.kind = .literal

/-- Can the token be no part of a `say`, a comma after a fragment apart? -/
def Token.isForeign (t : Token) : Bool :=
  match t.kind with
  | .keyword k => k ≠ .close
  | .symbol => true
  | .identifier | .literal | .newline | .endOfInput => false

namespace Level

@[simp] theorem body_empty : empty.body = [] := rfl

@[simp] theorem body_push (l : Level) (s : Statement) :
    (l.push s).body = l.body ++ [s] := by
  simp [body, push]

@[simp] theorem body_skip (l : Level) : l.skip.body = l.body := rfl

@[simp] theorem items_empty : empty.items = 0 := rfl

@[simp] theorem items_push (l : Level) (s : Statement) :
    (l.push s).items = l.items + 1 := rfl

@[simp] theorem items_skip (l : Level) : l.skip.items = l.items + 1 := rfl

end Level

namespace Reader

@[simp] theorem await_pending (r : Reader) (p : Pending) :
    (r.await p).pending = p := rfl

@[simp] theorem await_level (r : Reader) (p : Pending) :
    (r.await p).level = r.level := rfl

@[simp] theorem await_blocks (r : Reader) (p : Pending) :
    (r.await p).blocks = r.blocks := rfl

@[simp] theorem complete_pending (r : Reader) (s : Statement) :
    (r.complete s).pending = .idle := rfl

@[simp] theorem complete_level (r : Reader) (s : Statement) :
    (r.complete s).level = r.level.push s := rfl

@[simp] theorem complete_blocks (r : Reader) (s : Statement) :
    (r.complete s).blocks = r.blocks := rfl

@[simp] theorem complete_await (r : Reader) (p : Pending) (s : Statement) :
    (r.await p).complete s = r.complete s := rfl

@[simp] theorem await_await (r : Reader) (p q : Pending) :
    (r.await p).await q = r.await q := rfl

@[simp] theorem enter_await (r : Reader) (p : Pending) (header : Header)
    (line : Nat) : (r.await p).enter header line = r.enter header line := rfl

@[simp] theorem enter_pending (r : Reader) (header : Header) (line : Nat) :
    (r.enter header line).pending = .idle := rfl

@[simp] theorem enter_level (r : Reader) (header : Header) (line : Nat) :
    (r.enter header line).level = .empty := rfl

@[simp] theorem skip_pending (r : Reader) : r.skip.pending = r.pending := rfl

@[simp] theorem skip_level (r : Reader) : r.skip.level = r.level.skip := rfl

@[simp] theorem skip_blocks (r : Reader) : r.skip.blocks = r.blocks := rfl

theorem leave_pending {r : Reader} (hp : r.pending = .idle) :
    r.leave.pending = .idle := by
  unfold leave
  split
  · exact hp
  · rfl

/-! ## Moves -/

/-- `q` is the reader `r` when a new statement may start at `t`. -/
inductive Settles (r : Reader) (t : Token) : Reader → Prop where
  | idle : r.pending = .idle → Settles r t r
  | call {callee} : r.pending = .call callee → operand? t = none →
      Settles r t (r.complete (.call callee none))

/-- What a token does between statements. -/
inductive Begins (r : Reader) (t : Token) : Reader → Prop where
  | newline : t.kind = .newline → Begins r t r
  | call : t.kind = .identifier → Begins r t (r.await (.call t.text))
  | function : t.kind = .keyword .function →
      Begins r t (r.await (.function t.line))
  | start : t.kind = .keyword .start → Begins r t (r.await (.start t.line))
  | say : t.kind = .keyword .say → Begins r t (r.await (.say [] false))
  | set : t.kind = .keyword .set → Begins r t (r.await .set)
  | close : t.kind = .keyword .close → Begins r t r.leave
  | stray : t.isStray → Begins r t r.skip

/-- `t` is used up and takes `r` to the last argument. -/
inductive Moves (limit : Nat) (r : Reader) (t : Token) : Reader → Prop where
  | begins {q q'} : Settles r t q → q.isOverfull limit = false →
      Begins q t q' → Moves limit r t q'
  | functionName {line} : r.pending = .function line →
      t.kind = .identifier →
      Moves limit r t (r.await (.functionName line t.text))
  | parameter {line name} : r.pending = .functionName line name →
      t.kind = .identifier →
      Moves limit r t (r.await (.functionParameter line name t.text))
  | colon {header line} : r.pending.header? = some (header, line) →
      t.isSymbol ':' → Moves limit r t (r.enter header line)
  | fragment {fragments after o} : r.pending = .say fragments after →
      operand? t = some o →
      Moves limit r t (r.await (.say (o :: fragments) true))
  | comma {fragments} : r.pending = .say fragments true →
      t.isSymbol ',' → Moves limit r t (r.await (.say fragments false))
  | lineEnd {fragments after} : r.pending = .say fragments after →
      t.kind = .newline ∨ t.kind = .endOfInput →
      Moves limit r t
        (r.complete (.say fragments.reverse Statement.defaultTerminator))
  | sayEnd {fragments after} : r.pending = .say fragments after →
      t.kind = .keyword .close → Moves limit r t (r.await (.sayEnd fragments))
  | equals {fragments} : r.pending = .sayEnd fragments →
      t.isSymbol '=' → Moves limit r t (r.await (.sayEquals fragments))
  | terminator {fragments} : r.pending = .sayEquals fragments →
      t.kind = .literal →
      Moves limit r t (r.complete (.say fragments.reverse t.text))
  | set : r.pending = .set → t.kind = .identifier →
      Moves limit r t (r.complete (.set t.text))
  | argument {callee o} : r.pending = .call callee → operand? t = some o →
      Moves limit r t (r.complete (.call callee (some o)))

/-- `t` stops `r` with the given result, and is used up or left. -/
inductive Stops (limit : Nat) (r : Reader) (t : Token) :
    Except ReadFault Program → Bool → Prop where
  | full {q} : Settles r t q → q.isOverfull limit →
      Stops limit r t (.error (.blockLimit limit t.line)) false
  | inputEnd {q} : Settles r t q → t.kind = .endOfInput →
      Stops limit r t (q.conclude limit t.line) false
  | misfit {slot} : r.pending.slot? = some slot → slot.fits t = false →
      Stops limit r t (.error (.expected slot t.describe t.line)) true
  | unexpected {fragments after} : r.pending = .say fragments after →
      t.isForeign → (after && t.isSymbol ',') = false →
      Stops limit r t (.error (.unexpected t.describe t.line)) false

variable {limit : Nat} {r q : Reader} {t : Token}

/-- A symbol is neither an operand nor a keyword. -/
theorem kind_of_isSymbol {c : Char} (h : t.isSymbol c) : t.kind = .symbol := by
  simp only [Token.isSymbol, Bool.and_eq_true, decide_eq_true_eq] at h
  exact h.1.1

theorem begins_of_begin (h : r.begin limit t = .next q) :
    r.isOverfull limit = false ∧ Begins r t q := by
  unfold begin at h
  split at h
  · cases h
  · rename_i hroom
    refine ⟨by simpa using hroom, ?_⟩
    split at h <;> cases h
    · exact .newline ‹_›
    · exact .call ‹_›
    · exact .function ‹_›
    · exact .start ‹_›
    · exact .say ‹_›
    · exact .set ‹_›
    · exact .close ‹_›
    · -- the keywords left over are the reserved ones
      rename_i k _ _ _ _ _ hkind
      apply Begins.stray
      cases k <;> simp_all [Token.isStray, Keyword.isReserved]
    · exact .stray (by simp_all [Token.isStray])
    · exact .stray (by simp_all [Token.isStray])

theorem begin_of_begins (hroom : r.isOverfull limit = false)
    (h : Begins r t q) : r.begin limit t = .next q := by
  unfold begin
  rw [if_neg (by simp [hroom])]
  cases h with
  | stray hstray =>
    unfold Token.isStray at hstray
    split at hstray
    · rename_i k hkind
      cases k <;> simp_all [Keyword.isReserved]
    all_goals simp_all
  | _ hkind => simp [hkind]

theorem operand?_of_literal (h : t.kind = .literal) :
    operand? t = some (.literal t.text) := by
  simp [operand?, h]

theorem operand?_of_identifier (h : t.kind = .identifier) :
    operand? t = some (.var t.text) := by
  simp [operand?, h]

/-- Operands are literals and identifiers. -/
theorem kind_of_operand? {o : Operand} (h : operand? t = some o) :
    (t.kind = .literal ∧ o = .literal t.text) ∨
      (t.kind = .identifier ∧ o = .var t.text) := by
  unfold operand? at h
  split at h <;> cases h
  · exact .inl ⟨‹_›, rfl⟩
  · exact .inr ⟨‹_›, rfl⟩

theorem moves_of_continueSay {fragments : List Operand} {after : Bool}
    (hp : r.pending = .say fragments after)
    (h : r.continueSay fragments after t = .next q) : Moves limit r t q := by
  unfold continueSay at h
  split at h
  · rename_i hcomma
    simp only [Bool.and_eq_true] at hcomma
    obtain ⟨rfl, hcomma⟩ := hcomma
    cases h
    exact .comma hp hcomma
  · split at h <;> cases h
    · exact .sayEnd hp ‹_›
    · exact .lineEnd hp (.inl ‹_›)
    · exact .lineEnd hp (.inr ‹_›)
    · exact .fragment hp (operand?_of_literal ‹_›)
    · exact .fragment hp (operand?_of_identifier ‹_›)

/-- Every step that goes on is a move. -/
theorem moves_of_feed (h : r.feed limit t = .next q) : Moves limit r t q := by
  unfold feed at h
  split at h
  next hp =>
    obtain ⟨hroom, hbegins⟩ := begins_of_begin h
    exact .begins (.idle hp) hroom hbegins
  next line hp =>
    split at h <;> cases h
    exact .functionName hp ‹_›
  next line name hp =>
    split at h
    · cases h
      exact .colon (by rw [hp]; rfl) ‹_›
    · split at h <;> cases h
      exact .parameter hp ‹_›
  next line name parameter hp =>
    split at h <;> cases h
    exact .colon (by rw [hp]; rfl) ‹_›
  next line hp =>
    split at h <;> cases h
    exact .colon (by rw [hp]; rfl) ‹_›
  next fragments after hp => exact moves_of_continueSay hp h
  next fragments hp =>
    split at h <;> cases h
    exact .equals hp ‹_›
  next fragments hp =>
    split at h <;> cases h
    exact .terminator hp ‹_›
  next hp =>
    split at h <;> cases h
    exact .set hp ‹_›
  next callee hp =>
    split at h
    · cases h
      exact .argument hp ‹_›
    · obtain ⟨hroom, hbegins⟩ := begins_of_begin h
      exact .begins (.call hp ‹_›) hroom hbegins

/-- Every move is a step that goes on. -/
theorem feed_of_moves (h : Moves limit r t q) : r.feed limit t = .next q := by
  cases h with
  | begins hsettles hroom hbegins =>
    cases hsettles with
    | idle hp =>
      simp only [feed, hp]
      exact begin_of_begins hroom hbegins
    | call hp hno =>
      simp only [feed, hp, hno]
      exact begin_of_begins hroom hbegins
  | functionName hp hkind => simp [feed, hp, hkind]
  | parameter hp hkind => simp [feed, hp, hkind, Token.isSymbol]
  | colon hp hcolon =>
    unfold Pending.header? at hp
    split at hp <;> cases hp <;> simp [feed, *]
  | fragment hp ho =>
    rcases kind_of_operand? ho with ⟨hkind, rfl⟩ | ⟨hkind, rfl⟩ <;>
      simp [feed, hp, continueSay, hkind, Token.isSymbol]
  | comma hp hcomma => simp [feed, hp, continueSay, hcomma]
  | lineEnd hp hkind =>
    rcases hkind with hkind | hkind <;>
      simp [feed, hp, continueSay, hkind, Token.isSymbol]
  | sayEnd hp hkind => simp [feed, hp, continueSay, hkind, Token.isSymbol]
  | equals hp hequals => simp [feed, hp, hequals]
  | terminator hp hkind => simp [feed, hp, hkind]
  | set hp hkind => simp [feed, hp, hkind]
  | argument hp ho => simp [feed, hp, ho]

/-! ## Stops -/

variable {result : Except ReadFault Program} {uses : Bool}

/-- At the end of the input a reader between statements concludes, also if
    the block it is in is overfull. -/
theorem begin_endOfInput (ht : t.kind = .endOfInput) :
    r.begin limit t = .stop (r.conclude limit t.line) false := by
  simp only [begin, ht]
  split
  · rename_i hfull
    rw [conclude, if_pos hfull]
  · rfl

theorem stops_of_begin (hsettles : Settles r t q)
    (h : q.begin limit t = .stop result uses) : Stops limit r t result uses := by
  unfold begin at h
  split at h
  · rename_i hfull
    cases h
    exact .full hsettles hfull
  · split at h <;> cases h
    exact .inputEnd hsettles ‹_›

theorem stops_of_continueSay {fragments : List Operand} {after : Bool}
    (hp : r.pending = .say fragments after)
    (h : r.continueSay fragments after t = .stop result uses) :
    Stops limit r t result uses := by
  unfold continueSay at h
  split at h
  · cases h
  · rename_i hcomma
    have hcomma : (after && t.isSymbol ',') = false := by simpa using hcomma
    split at h <;> cases h
    · rename_i k hclose hkind
      refine .unexpected hp ?_ hcomma
      simp only [Token.isForeign, hkind, decide_eq_true_eq]
      exact hclose
    · rename_i hkind
      exact .unexpected hp (by simp [Token.isForeign, hkind]) hcomma

/-- A token that does not fit its place stops the reader. -/
theorem feed_misfit {slot : Slot} (hslot : r.pending.slot? = some slot)
    (h : slot.fits t = false) : r.feed limit t = .misfit slot t := by
  unfold Pending.slot? at hslot
  split at hslot <;> cases hslot <;> simp_all [feed, Slot.fits]

theorem feed_fits (limit : Nat) {slot : Slot}
    (hslot : r.pending.slot? = some slot) (h : slot.fits t) :
    ∃ q, r.feed limit t = .next q := by
  unfold Pending.slot? at hslot
  split at hslot <;> cases hslot
  case h_2 line name hp =>
    -- the name of a function is followed by a colon or by a parameter
    by_cases hcolon : t.isSymbol ':'
    · simp [feed, hp, hcolon]
    · simp_all [feed, Slot.fits]
  all_goals simp_all [feed, Slot.fits]

/-- Every step that does not go on is a stop. -/
theorem stops_of_feed (h : r.feed limit t = .stop result uses) :
    Stops limit r t result uses := by
  cases hslot : r.pending.slot? with
  | some slot =>
    cases hfits : slot.fits t with
    | true =>
      obtain ⟨q, hq⟩ := feed_fits limit hslot hfits
      rw [hq] at h
      cases h
    | false =>
      rw [feed_misfit hslot hfits] at h
      cases h
      exact .misfit hslot hfits
  | none =>
    unfold feed at h
    cases hp : r.pending with
    | idle =>
      simp only [hp] at h
      exact stops_of_begin (.idle hp) h
    | say fragments after =>
      simp only [hp] at h
      exact stops_of_continueSay hp h
    | call callee =>
      simp only [hp] at h
      split at h
      · cases h
      · exact stops_of_begin (.call hp ‹_›) h
    | _ =>
      rw [hp] at hslot
      cases hslot

/-- Every stop is a step that does not go on. -/
theorem feed_of_stops (h : Stops limit r t result uses) :
    r.feed limit t = .stop result uses := by
  have hbegin : ∀ q, Settles r t q → r.feed limit t = q.begin limit t := by
    intro q hsettles
    cases hsettles with
    | idle hp => simp only [feed, hp]
    | call hp hno => simp only [feed, hp, hno]
  cases h with
  | full hsettles hfull =>
    rw [hbegin _ hsettles, begin, if_pos hfull]
  | inputEnd hsettles hkind =>
    rw [hbegin _ hsettles, begin_endOfInput hkind]
  | misfit hslot hfits => exact feed_misfit hslot hfits
  | unexpected hp hforeign hcomma =>
    simp only [feed, hp, continueSay, hcomma, Token.isForeign] at hforeign ⊢
    split at hforeign <;> simp_all

/-- Between statements every move starts one, or passes over a token. -/
theorem Moves.of_idle (hp : r.pending = .idle) (h : Moves limit r t q) :
    Begins r t q := by
  have hfeed := feed_of_moves h
  simp only [feed, hp] at hfeed
  exact (begins_of_begin hfeed).2

end Reader

end SayScript
