import SayScript.Proofs.Moves

/-! # Runs of a reader

    A run is a chain of moves, `Reads`, after which the reader halts.
    Reading on after a chain is reading on from where the chain ends, and a
    run that gives a program consists of a chain, the end of the input, and
    a reader that is outside all blocks.

    There are four ways to halt, `Halts`: a token stops the reader and is
    used up, or is left, or the tokens ran out, between statements or in a
    `say`.

    Most results are about what is read and not about how often a token was
    taken on the way; these speak about `Reader.result`. -/

namespace SayScript

theorem Token.lastLine_append (ts : List Token) {rest : List Token}
    (h : rest ≠ []) : lastLine (ts ++ rest) = lastLine rest := by
  have hlast := List.getLast?_eq_some_getLast h
  rw [lastLine, lastLine, List.getLast?_append, hlast, Option.some_or]

theorem Token.lastLine_map {f : Token → Token} {h : Nat → Nat}
    {ts : List Token} (hf : ∀ t, (f t).line = h t.line) (hts : ts ≠ []) :
    lastLine (ts.map f) = h (lastLine ts) := by
  have hlast := List.getLast?_eq_some_getLast hts
  simp only [lastLine, List.getLast?_map, hlast, Option.map_some, hf]

namespace Reader

/-- All tokens are used up and take the first reader to the last. -/
inductive Reads (limit : Nat) : Reader → List Token → Reader → Prop where
  | nil (r : Reader) : Reads limit r [] r
  | cons {r q q' : Reader} {t : Token} {ts : List Token} :
      Moves limit r t q → Reads limit q ts q' → Reads limit r (t :: ts) q'

variable {limit lastLine : Nat} {r q q' : Reader} {t : Token}
  {ts rest : List Token} {p : Program}

theorem Reads.single (h : Moves limit r t q) : Reads limit r [t] q :=
  .cons h (.nil q)

theorem Reads.append (h : Reads limit r ts q) (h' : Reads limit q rest q') :
    Reads limit r (ts ++ rest) q' := by
  induction h with
  | nil r => exact h'
  | cons hmove _ ih => exact .cons hmove (ih h')

theorem Reads.of_append (h : Reads limit r (ts ++ rest) q') :
    ∃ q, Reads limit r ts q ∧ Reads limit q rest q' := by
  induction ts generalizing r with
  | nil => exact ⟨r, .nil r, h⟩
  | cons t ts ih =>
    cases h with
    | cons hmove hreads =>
      obtain ⟨q, hfirst, hrest⟩ := ih hreads
      exact ⟨q, .cons hmove hfirst, hrest⟩

/-- A chain of moves is the first part of the run on any longer input. -/
theorem run_append (h : Reads limit r ts q) (advances : Nat) :
    r.run limit lastLine advances (ts ++ rest) =
      q.run limit lastLine (advances + ts.length) rest := by
  induction h generalizing advances with
  | nil r => rfl
  | cons hmove _ ih =>
    simp only [List.cons_append, run, feed_of_moves hmove, List.length_cons]
    rw [ih, Nat.add_assoc, Nat.add_comm 1]

/-- How many tokens were taken before makes no difference but to the
    count. -/
theorem run_add (before advances : Nat) :
    r.run limit lastLine (before + advances) ts =
      { r.run limit lastLine advances ts with
        advances := before + (r.run limit lastLine advances ts).advances } := by
  induction ts generalizing r advances with
  | nil =>
    simp only [run]
    split <;> simp [Nat.add_assoc]
  | cons t ts ih =>
    simp only [run]
    split
    · simp [Nat.add_assoc]
    · rfl
    · rw [Nat.add_assoc, ih]

/-! ## Results -/

/-- What reading on gives. -/
def result (limit lastLine : Nat) (r : Reader) (ts : List Token) :
    Except ReadFault Program :=
  (r.run limit lastLine 0 ts).result

theorem run_result (advances : Nat) :
    (r.run limit lastLine advances ts).result =
      r.result limit lastLine ts := by
  rw [← Nat.add_zero advances, run_add]
  rfl

theorem ofTokens_eq_result (limit : Nat) (ts : List Token) :
    Program.ofTokens limit ts =
      initial.result limit (Token.lastLine ts) ts :=
  rfl

theorem result_append (h : Reads limit r ts q) :
    r.result limit lastLine (ts ++ rest) = q.result limit lastLine rest := by
  unfold result
  rw [run_append h, run_result, run_result]

theorem result_cons (h : Moves limit r t q) :
    r.result limit lastLine (t :: ts) = q.result limit lastLine ts :=
  result_append (.single h)

theorem result_of_stop {result : Except ReadFault Program} {uses : Bool}
    (h : r.feed limit t = .stop result uses) :
    r.result limit lastLine (t :: ts) = result := by
  unfold Reader.result
  cases uses <;> simp [run, h]

/-- At the end of the input the result depends only on what the reader does
    with one end-of-input token. -/
theorem result_nil :
    r.result limit lastLine [] =
      match r.feed limit (.endOfInput lastLine) with
      | .stop result _ => result
      | .next q => q.conclude limit lastLine := by
  simp only [result, run]
  cases r.feed limit (.endOfInput lastLine) <;> rfl

/-- Between statements the end of the input stops the reader. -/
theorem feed_endOfInput (hp : r.pending = .idle) (ht : t.kind = .endOfInput) :
    r.feed limit t = .stop (r.conclude limit t.line) false := by
  simp only [feed, hp, begin_endOfInput ht]

theorem result_endOfInput (hp : r.pending = .idle)
    (ht : t.kind = .endOfInput) :
    r.result limit lastLine (t :: ts) = r.conclude limit t.line :=
  result_of_stop (feed_endOfInput hp ht)

theorem result_nil_of_idle (hp : r.pending = .idle) :
    r.result limit lastLine [] = r.conclude limit lastLine := by
  rw [result_nil, feed_endOfInput hp rfl]
  rfl

/-- A call that no operand follows is complete. -/
theorem result_settle {callee : String} (hp : r.pending = .call callee)
    (hno : ∀ t ∈ ts.head?, operand? t = none) :
    r.result limit lastLine ts =
      (r.complete (.call callee none)).result limit lastLine ts := by
  have hfeed : ∀ t, operand? t = none → r.feed limit t =
      (r.complete (.call callee none)).feed limit t := by
    intro t ht
    simp [feed, hp, ht]
  cases ts with
  | nil => rw [result_nil, result_nil, hfeed _ rfl]
  | cons t ts =>
    unfold result
    simp only [run, hfeed t (hno t rfl)]

/-! ## Runs that give a program -/

/-- The tokens that a run on `ts` with this outcome used. -/
def Outcome.used (outcome : Outcome) (ts : List Token) : List Token :=
  ts.take (ts.length - outcome.rest.length)

theorem used_eq {outcome : Outcome} {used : List Token}
    (h : ts = used ++ outcome.rest) : outcome.used ts = used := by
  rw [Outcome.used, h]
  simp

theorem conclude_eq_ok {line : Nat} (h : r.conclude limit line = .ok p) :
    r.blocks = [] ∧ p = { statements := r.level.body } := by
  unfold conclude at h
  split at h
  · cases h
  · split at h
    · rename_i hblocks
      cases h
      exact ⟨hblocks, rfl⟩
    · cases h

/-- Only the end of the input stops a reader with a program. -/
theorem feed_eq_stop_ok {uses : Bool}
    (h : r.feed limit t = .stop (.ok p) uses) :
    ∃ q, Settles r t q ∧ t.kind = .endOfInput ∧ uses = false ∧
      q.conclude limit t.line = .ok p := by
  generalize hresult : Except.ok p = result at h
  cases stops_of_feed h with
  | inputEnd hsettles hkind => exact ⟨_, hsettles, hkind, rfl, rfl⟩
  | full _ _ => cases hresult
  | misfit _ _ => cases hresult
  | unexpected _ _ _ => cases hresult

/-- `q` is what the end of the input makes of `r`: it completes a call or a
    `say`. -/
def Ends (limit : Nat) (r q : Reader) : Prop :=
  ∃ t : Token, t.kind = .endOfInput ∧ (Settles r t q ∨ Moves limit r t q)

/-- The end of a line completes a `say` or is passed over, and the end of
    the input only completes a `say`. -/
theorem Moves.of_lineEnd (h : Moves limit r t q)
    (hkind : t.kind = .newline ∨ t.kind = .endOfInput) :
    (∃ fragments after, r.pending = .say fragments after ∧
      q = r.complete
        (.say fragments.reverse Statement.defaultTerminator)) ∨
    (t.kind = .newline ∧ Settles r t q) := by
  have hsymbol : ∀ {c}, t.isSymbol c → False := by
    intro c hc
    simp [kind_of_isSymbol hc] at hkind
  have hoperand : ∀ {o}, operand? t = some o → False := by
    intro o ho
    rcases hkind with hkind | hkind <;> simp [operand?, hkind] at ho
  cases h with
  | begins hsettles _ hbegins =>
    cases hbegins with
    | newline hnewline => exact .inr ⟨hnewline, hsettles⟩
    | stray hstray =>
      rcases hkind with hkind | hkind <;> simp [Token.isStray, hkind] at hstray
    | _ hother => simp [hother] at hkind
  | lineEnd hp _ => exact .inl ⟨_, _, hp, rfl⟩
  | colon _ hcolon => exact (hsymbol hcolon).elim
  | comma _ hcomma => exact (hsymbol hcomma).elim
  | equals _ hequals => exact (hsymbol hequals).elim
  | fragment _ ho => exact (hoperand ho).elim
  | argument _ ho => exact (hoperand ho).elim
  | _ _ hother => simp [hother] at hkind

theorem Moves.eq_of_endOfInput (h : Moves limit r t q)
    (hkind : t.kind = .endOfInput) :
    ∃ fragments after, r.pending = .say fragments after ∧
      q = r.complete
        (.say fragments.reverse Statement.defaultTerminator) := by
  rcases h.of_lineEnd (.inr hkind) with hsay | ⟨hnewline, -⟩
  · exact hsay
  · rw [hkind] at hnewline
    cases hnewline

theorem Settles.pending (h : Settles r t q) : q.pending = .idle := by
  cases h with
  | idle hp => exact hp
  | call _ _ => rfl

/-- The end of a line or of the input leaves no statement open. -/
theorem Moves.pending_of_lineEnd (h : Moves limit r t q)
    (hkind : t.kind = .newline ∨ t.kind = .endOfInput) : q.pending = .idle := by
  rcases h.of_lineEnd hkind with ⟨_, _, _, rfl⟩ | ⟨-, hsettles⟩
  · rfl
  · exact hsettles.pending

/-- A chain of moves leaves no statement open if it ends with the end of a
    line or of the input, or if it is empty and none was open before. -/
theorem Reads.pending_of_lineEnd (h : Reads limit r ts q)
    (hr : ts = [] → r.pending = .idle)
    (hts : ∀ t ∈ ts.getLast?, t.kind = .newline ∨ t.kind = .endOfInput) :
    q.pending = .idle := by
  induction h with
  | nil r => exact hr rfl
  | @cons r q q' t ts hmove _ ih =>
    apply ih
    · rintro rfl
      exact hmove.pending_of_lineEnd (hts t rfl)
    · intro last hlast
      apply hts last
      cases ts with
      | nil => cases hlast
      | cons t' ts => simpa using hlast

theorem Ends.pending (h : Ends limit r q) : q.pending = .idle := by
  obtain ⟨t, hkind, hsettles | hmoves⟩ := h
  · exact hsettles.pending
  · obtain ⟨_, _, _, rfl⟩ := hmoves.eq_of_endOfInput hkind
    rfl

/-! ## How a run ends -/

/-- A reader that took `advances` tokens before does not use all of the
    tokens that are left, but halts with the outcome. -/
inductive Halts (limit lastLine : Nat) (r : Reader) (advances : Nat) :
    List Token → Outcome → Prop where
  | used {t : Token} {ts : List Token} {result} :
      Stops limit r t result true →
      Halts limit lastLine r advances (t :: ts) ⟨result, ts, advances + 1⟩
  | left {t : Token} {ts : List Token} {result} :
      Stops limit r t result false →
      Halts limit lastLine r advances (t :: ts) ⟨result, t :: ts, advances⟩
  | ranOut {result uses} : Stops limit r (.endOfInput lastLine) result uses →
      Halts limit lastLine r advances []
        ⟨result, [], advances + uses.toNat⟩
  | inSay {q : Reader} : Moves limit r (.endOfInput lastLine) q →
      Halts limit lastLine r advances []
        ⟨q.conclude limit lastLine, [], advances + 1⟩

theorem run_of_halts {advances : Nat} {outcome : Outcome}
    (h : Halts limit lastLine r advances ts outcome) :
    r.run limit lastLine advances ts = outcome := by
  cases h with
  | used hstops => simp only [run, feed_of_stops hstops]
  | left hstops => simp only [run, feed_of_stops hstops]
  | ranOut hstops => simp only [run, feed_of_stops hstops]
  | inSay hmoves => simp only [run, feed_of_moves hmoves]

/-- Every run is a chain of moves, after which the reader halts. -/
theorem exists_halts (limit lastLine : Nat) (r : Reader) (advances : Nat)
    (ts : List Token) :
    ∃ used q left, ts = used ++ left ∧ Reads limit r used q ∧
      Halts limit lastLine q (advances + used.length) left
        (r.run limit lastLine advances ts) := by
  induction ts generalizing r advances with
  | nil =>
    refine ⟨[], r, [], rfl, .nil r, ?_⟩
    rw [List.length_nil, Nat.add_zero, run]
    cases hfeed : r.feed limit (.endOfInput lastLine) with
    | stop result uses => exact .ranOut (stops_of_feed hfeed)
    | next q => exact .inSay (moves_of_feed hfeed)
  | cons t ts ih =>
    cases hfeed : r.feed limit t with
    | stop result uses =>
      have hstops := stops_of_feed hfeed
      refine ⟨[], r, t :: ts, rfl, .nil r, ?_⟩
      rw [List.length_nil, Nat.add_zero, run, hfeed]
      cases uses with
      | true => exact .used hstops
      | false => exact .left hstops
    | next q =>
      obtain ⟨used, q', left, rfl, hreads, hhalts⟩ := ih q (advances + 1)
      refine ⟨t :: used, q', left, rfl, .cons (moves_of_feed hfeed) hreads, ?_⟩
      rw [run, hfeed, List.length_cons, Nat.add_comm used.length,
        ← Nat.add_assoc]
      exact hhalts

/-- Tokens are used up by a chain of moves, or one of them stops the reader,
    whatever follows them. -/
theorem reads_or_stops (limit : Nat) (r : Reader) (ts : List Token) :
    (∃ q, Reads limit r ts q) ∨
      ∃ used q t left result uses, ts = used ++ t :: left ∧
        Reads limit r used q ∧ Stops limit q t result uses := by
  obtain ⟨used, q, left, rfl, hreads, hhalts⟩ := exists_halts limit 0 r 0 ts
  generalize r.run limit 0 0 (used ++ left) = outcome at hhalts
  cases hhalts with
  | used hstops => exact .inr ⟨used, q, _, _, _, _, rfl, hreads, hstops⟩
  | left hstops => exact .inr ⟨used, q, _, _, _, _, rfl, hreads, hstops⟩
  | ranOut _ => exact .inl ⟨q, by simpa using hreads⟩
  | inSay _ => exact .inl ⟨q, by simpa using hreads⟩

/-- A run gives a program if a chain of moves and the end of the input leave
    the reader outside all blocks. -/
theorem run_eq_ok {advances : Nat}
    (h : (r.run limit lastLine advances ts).result = .ok p) :
    ∃ used q q', ts = used ++ (r.run limit lastLine advances ts).rest ∧
      Reads limit r used q ∧ Ends limit q q' ∧ q'.blocks = [] ∧
      p = { statements := q'.level.body } := by
  obtain ⟨used, q, left, hts, hreads, hhalts⟩ :=
    exists_halts limit lastLine r advances ts
  refine ⟨used, q, ?_⟩
  generalize r.run limit lastLine advances ts = outcome at h hhalts ⊢
  -- what is used up stops a reader only with a fault
  have hstop : ∀ {t uses}, Stops limit q t (.ok p) uses →
      uses = false ∧ ∃ q', Ends limit q q' ∧ q'.blocks = [] ∧
        p = { statements := q'.level.body } := by
    intro t uses hstops
    obtain ⟨q', hsettles, hkind, huses, hq'⟩ :=
      feed_eq_stop_ok (feed_of_stops hstops)
    obtain ⟨hblocks, hp⟩ := conclude_eq_ok hq'
    exact ⟨huses, q', ⟨t, hkind, .inl hsettles⟩, hblocks, hp⟩
  cases hhalts with
  | used hstops =>
    cases h
    cases (hstop hstops).1
  | left hstops =>
    cases h
    obtain ⟨-, q', hends, hblocks, hp⟩ := hstop hstops
    exact ⟨q', hts, hreads, hends, hblocks, hp⟩
  | ranOut hstops =>
    cases h
    obtain ⟨-, q', hends, hblocks, hp⟩ := hstop hstops
    exact ⟨q', hts, hreads, hends, hblocks, hp⟩
  | @inSay q' hmoves =>
    obtain ⟨hblocks, hp⟩ := conclude_eq_ok h
    exact ⟨q', hts, hreads, ⟨_, rfl, .inr hmoves⟩, hblocks, hp⟩

end Reader

end SayScript
