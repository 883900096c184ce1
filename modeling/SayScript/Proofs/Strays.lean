import SayScript.Proofs.Limits

/-! # Strays at the start of a line

    A token that can start no statement is skipped where a statement could
    start.  Every line starts at such a place: a line end that does not stop
    the reader leaves it between statements, whatever stood on the line and
    however deep in blocks it is.

    A skipped token leaves one trace, as the items of a block are counted.
    `Alike` holds of readers that differ in these numbers only.  As long as
    neither comes to the limit they make the same moves and stop with the
    same result. -/

namespace SayScript

theorem Token.isStray_iff {t : Token} :
    t.isStray ↔ (∃ k : Keyword, t.kind = .keyword k ∧ k.isReserved) ∨
      t.kind = .symbol ∨ t.kind = .literal := by
  obtain ⟨kind, text, line⟩ := t
  cases kind <;> simp [isStray]

/-! ## Readers that differ in their counts -/

/-- The block without the number of items around it. -/
def OpenBlock.uncounted (b : OpenBlock) : OpenBlock :=
  { b with outer := { b.outer with items := 0 } }

/-- The readers differ at most in numbers of items. -/
structure Reader.Alike (r r' : Reader) : Prop where
  pending : r'.pending = r.pending
  statements : r'.level.statements = r.level.statements
  blocks : r'.blocks.map OpenBlock.uncounted =
    r.blocks.map OpenBlock.uncounted

namespace Reader

variable {limit lastLine n : Nat} {r r' q : Reader} {t : Token}
  {ts : List Token} {result : Except ReadFault Program} {uses : Bool}

/-- A skipped token is counted and nothing else. -/
theorem alike_skip (r : Reader) : Alike r r.skip :=
  ⟨rfl, rfl, rfl⟩

theorem Alike.await (h : Alike r r') (p : Pending) :
    Alike (r.await p) (r'.await p) :=
  ⟨rfl, h.statements, h.blocks⟩

theorem Alike.complete (h : Alike r r') (s : Statement) :
    Alike (r.complete s) (r'.complete s) :=
  ⟨rfl, congrArg (s :: ·) h.statements, h.blocks⟩

theorem Alike.enter (h : Alike r r') (header : Header) (line : Nat) :
    Alike (r.enter header line) (r'.enter header line) := by
  refine ⟨rfl, rfl, ?_⟩
  simp [Reader.enter, OpenBlock.uncounted, h.statements, h.blocks]

/-- Readers that are alike are both outside all blocks, or their innermost
    blocks differ at most in the number of items around them. -/
theorem Alike.blocks_cases (h : Alike r r') :
    (r.blocks = [] ∧ r'.blocks = []) ∨
      ∃ b b' outer outer', r.blocks = b :: outer ∧ r'.blocks = b' :: outer' ∧
        b'.header = b.header ∧ b'.openedAt = b.openedAt ∧
        b'.outer.statements = b.outer.statements ∧
        outer'.map OpenBlock.uncounted = outer.map OpenBlock.uncounted := by
  have hblocks := h.blocks
  cases hr : r.blocks with
  | nil => exact .inl ⟨rfl, by simpa [hr] using hblocks⟩
  | cons b outer =>
    cases hr' : r'.blocks with
    | nil => simp [hr, hr'] at hblocks
    | cons b' outer' =>
      simp only [hr, hr', List.map_cons, List.cons.injEq, OpenBlock.uncounted,
        OpenBlock.mk.injEq, Level.mk.injEq] at hblocks
      obtain ⟨⟨hheader, hline, hstatements, -⟩, houter⟩ := hblocks
      exact .inr ⟨b, b', outer, outer', rfl, rfl, hheader, hline,
        hstatements, houter⟩

/-- The block that is closed has the same statements for both. -/
theorem Alike.leave (h : Alike r r') : Alike r.leave r'.leave := by
  unfold Reader.leave
  rcases h.blocks_cases with ⟨hr, hr'⟩ |
    ⟨b, b', outer, outer', hr, hr', hheader, -, hstatements, houter⟩
  · rw [hr, hr']
    exact ⟨h.pending, h.statements, h.blocks⟩
  · rw [hr, hr']
    refine ⟨rfl, ?_, houter⟩
    simp only [Level.push, Level.body, hheader, hstatements, h.statements]

/-! ## Readers that are alike do the same -/

theorem Settles.alike (h : Settles r t q) (hr : Alike r r') :
    ∃ q', Settles r' t q' ∧ Alike q q' := by
  cases h with
  | idle hp => exact ⟨r', .idle (hr.pending.trans hp), hr⟩
  | call hp hno => exact ⟨_, .call (hr.pending.trans hp) hno, hr.complete _⟩

theorem Begins.alike (h : Begins r t q) (hr : Alike r r') :
    ∃ q', Begins r' t q' ∧ Alike q q' := by
  cases h with
  | newline hkind => exact ⟨_, .newline hkind, hr⟩
  | call hkind => exact ⟨_, .call hkind, hr.await _⟩
  | function hkind => exact ⟨_, .function hkind, hr.await _⟩
  | start hkind => exact ⟨_, .start hkind, hr.await _⟩
  | say hkind => exact ⟨_, .say hkind, hr.await _⟩
  | set hkind => exact ⟨_, .set hkind, hr.await _⟩
  | close hkind => exact ⟨_, .close hkind, hr.leave⟩
  | stray hstray =>
    exact ⟨_, .stray hstray, hr.pending, hr.statements, hr.blocks⟩

/-- A reader that is alike and has room makes the same move. -/
theorem Moves.alike (h : Moves limit r t q) (hr : Alike r r')
    (hcount : r'.Counted n) (hn : n ≤ limit) :
    ∃ q', Moves limit r' t q' ∧ Alike q q' := by
  have hpending : ∀ {p}, r.pending = p → r'.pending = p := fun hp => hr.pending.trans hp
  cases h with
  | begins hsettles _ hbegins =>
    obtain ⟨q₁, hsettles', hq₁⟩ := hsettles.alike hr
    obtain ⟨q', hbegins', hq'⟩ := hbegins.alike hq₁
    have hroom := (hcount.settles hsettles').isOverfull hn
    exact ⟨q', .begins hsettles' hroom hbegins', hq'⟩
  | functionName hp hkind =>
    exact ⟨_, .functionName (hpending hp) hkind, hr.await _⟩
  | parameter hp hkind =>
    exact ⟨_, .parameter (hpending hp) hkind, hr.await _⟩
  | colon hp hcolon =>
    exact ⟨_, .colon (hr.pending ▸ hp) hcolon, hr.enter _ _⟩
  | fragment hp ho => exact ⟨_, .fragment (hpending hp) ho, hr.await _⟩
  | comma hp hcomma => exact ⟨_, .comma (hpending hp) hcomma, hr.await _⟩
  | lineEnd hp hkind =>
    exact ⟨_, .lineEnd (hpending hp) hkind, hr.complete _⟩
  | sayEnd hp hkind => exact ⟨_, .sayEnd (hpending hp) hkind, hr.await _⟩
  | equals hp hequals =>
    exact ⟨_, .equals (hpending hp) hequals, hr.await _⟩
  | terminator hp hkind =>
    exact ⟨_, .terminator (hpending hp) hkind, hr.complete _⟩
  | set hp hkind => exact ⟨_, .set (hpending hp) hkind, hr.complete _⟩
  | argument hp ho => exact ⟨_, .argument (hpending hp) ho, hr.complete _⟩

theorem Reads.alike (h : Reads limit r ts q) (hr : Alike r r')
    (hcount : r'.Counted n) (hn : n + ts.length ≤ limit) :
    ∃ q', Reads limit r' ts q' ∧ Alike q q' := by
  induction h generalizing r' n with
  | nil r => exact ⟨r', .nil r', hr⟩
  | @cons r q _ t ts hmove _ ih =>
    rw [List.length_cons] at hn
    obtain ⟨q₁, hmove', hq₁⟩ := hmove.alike hr hcount (by omega)
    obtain ⟨q', hreads', hq'⟩ :=
      ih hq₁ (hcount.moves hmove') (by omega)
    exact ⟨q', .cons hmove' hreads', hq'⟩

theorem Alike.conclude (h : Alike r r')
    (hroom : r.isOverfull limit = false)
    (hroom' : r'.isOverfull limit = false) (line : Nat) :
    r'.conclude limit line = r.conclude limit line := by
  unfold Reader.conclude
  rw [hroom, hroom']
  rcases h.blocks_cases with ⟨hr, hr'⟩ |
    ⟨b, b', outer, outer', hr, hr', -, hline, -, -⟩
  · simp [hr, hr', Level.body, h.statements]
  · simp [hr, hr', hline]

/-- A reader that is alike stops at the same token with the same result, if
    both have room. -/
theorem Stops.alike (h : Stops limit r t result uses) (hr : Alike r r')
    (hcount : r.Counted n) (hcount' : r'.Counted n) (hn : n ≤ limit) :
    Stops limit r' t result uses := by
  cases h with
  | full hsettles hfull =>
    -- there is room
    have hroom := (hcount.settles hsettles).isOverfull hn
    rw [hroom] at hfull
    cases hfull
  | inputEnd hsettles hkind =>
    obtain ⟨q', hsettles', hq'⟩ := hsettles.alike hr
    have hroom := (hcount.settles hsettles).isOverfull hn
    have hroom' := (hcount'.settles hsettles').isOverfull hn
    rw [← hq'.conclude hroom hroom' t.line]
    exact .inputEnd hsettles' hkind
  | misfit hslot hfits => exact .misfit (hr.pending ▸ hslot) hfits
  | unexpected hp hforeign hcomma =>
    exact .unexpected (hr.pending.trans hp) hforeign hcomma

theorem Halts.alike {advances : Nat} {outcome : Outcome}
    (h : Halts limit lastLine r advances ts outcome) (hr : Alike r r')
    (hcount : r.Counted n) (hcount' : r'.Counted n) (hn : n ≤ limit) :
    Halts limit lastLine r' advances ts outcome := by
  cases h with
  | used hstops => exact .used (hstops.alike hr hcount hcount' hn)
  | left hstops => exact .left (hstops.alike hr hcount hcount' hn)
  | ranOut hstops => exact .ranOut (hstops.alike hr hcount hcount' hn)
  | inSay hmoves =>
    -- the end of the input only completes a `say`, which was begun before
    obtain ⟨fragments, after, hp, rfl⟩ := hmoves.eq_of_endOfInput rfl
    have hp' := hr.pending.trans hp
    have hroom := (hcount.complete (by rw [hp]; rfl) (.say fragments.reverse
      Statement.defaultTerminator)).isOverfull hn
    have hroom' := (hcount'.complete (by rw [hp']; rfl) (.say
      fragments.reverse Statement.defaultTerminator)).isOverfull hn
    rw [← (hr.complete _).conclude hroom hroom' lastLine]
    exact .inSay (.lineEnd hp' (.inr rfl))

/-- Readers that are alike have the same run, if there is room for an item
    for each token. -/
theorem Alike.run_eq (hr : Alike r r') (hcount : r.Counted n)
    (hcount' : r'.Counted n) (hn : n + ts.length ≤ limit) (advances : Nat) :
    r'.run limit lastLine advances ts = r.run limit lastLine advances ts := by
  obtain ⟨used, q, left, rfl, hreads, hhalts⟩ :=
    exists_halts limit lastLine r advances ts
  rw [List.length_append] at hn
  obtain ⟨q', hreads', hq⟩ := hreads.alike hr hcount' (by omega)
  have hhalts' := hhalts.alike hq (hcount.reads hreads)
    (hcount'.reads hreads') (by omega)
  rw [run_append hreads', run_of_halts hhalts']

/-! ## Inserted strays -/

/-- A stray after whole lines changes nothing, whether or not the reader
    comes to it. -/
theorem result_insert {before after : List Token}
    (hbefore : ∀ u ∈ before.getLast?, u.kind = .newline) (ht : t.isStray)
    (hlimit : before.length + after.length < limit) :
    initial.result limit lastLine (before ++ t :: after) =
      initial.result limit lastLine (before ++ after) := by
  rcases reads_or_stops limit initial before with ⟨q, hreads⟩ |
    ⟨used, q, u, left, result, uses, rfl, hreads, hstops⟩
  · have hidle : q.pending = .idle :=
      hreads.pending_of_lineEnd (fun _ => rfl) fun u hu => .inl (hbefore u hu)
    have hcount := Counted.initial.reads hreads
    have hmove : Moves limit q t q.skip :=
      .begins (.idle hidle) (hcount.isOverfull (by omega)) (.stray ht)
    rw [result_append hreads, result_append hreads, result_cons hmove]
    -- what comes after is read by two readers that are alike
    unfold result
    rw [(alike_skip q).run_eq hcount.succ (hcount.moves hmove) (by omega)]
  · have hfeed := feed_of_stops hstops
    rw [List.append_assoc, List.append_assoc, result_append hreads,
      result_append hreads, List.cons_append, List.cons_append,
      result_of_stop hfeed, result_of_stop hfeed]

end Reader

/-- **Strays at the start of a line are no-ops.**  A reserved keyword, a
    symbol or a literal in front of any line, at any depth, changes neither
    the program nor the fault, as long as the limit is out of reach.  The
    tokens may end in any way. -/
theorem Program.ofTokens_insertIdx_stray {limit i : Nat} {ts : List Token}
    {t : Token} (hi : i < ts.length)
    (hline : i = 0 ∨ ∃ u ∈ ts[i - 1]?, u.kind = .newline)
    (ht : (∃ k : Keyword, t.kind = .keyword k ∧ k.isReserved) ∨
      t.kind = .symbol ∨ t.kind = .literal)
    (hlimit : ts.length < limit) :
    ofTokens limit (ts.insertIdx i t) = ofTokens limit ts := by
  obtain ⟨before, after, rfl, hlength, hinsert⟩ :=
    List.exists_of_modifyTailIdx (List.cons t) (Nat.le_of_lt hi)
  rw [List.length_append] at hi hlimit
  have hbefore : ∀ u ∈ before.getLast?, u.kind = .newline := by
    intro u hu
    rw [List.getLast?_eq_getElem?, hlength] at hu
    rcases hline with rfl | ⟨v, hv, hkind⟩
    · rw [List.length_eq_zero_iff.mp hlength] at hu
      cases hu
    · have hlt : i - 1 < before.length := by
        have := (List.getElem?_eq_some_iff.mp hu).1
        omega
      rw [List.getElem?_append_left hlt] at hv
      rwa [Option.some.inj (hu.symm.trans hv)]
  -- some token comes after the stray, so that the input ends on the same line
  have hafter : after ≠ [] := by
    rintro rfl
    rw [List.length_nil] at hi
    omega
  have hlast : Token.lastLine (before ++ t :: after) =
      Token.lastLine (before ++ after) := by
    rw [Token.lastLine_append _ hafter, List.append_cons,
      Token.lastLine_append _ hafter]
  have hstray := Token.isStray_iff.mpr ht
  show ofTokens limit (List.modifyTailIdx _ i (List.cons t)) = _
  rw [hinsert, Reader.ofTokens_eq_result, Reader.ofTokens_eq_result, hlast]
  exact Reader.result_insert hbefore hstray hlimit

/-- A literal, a comma and a reserved keyword, in front of the first line, of
    a line in two blocks that follows a `say`, and of the line with a
    fault. -/
theorem Program.ofTokens_insertIdx_stray_nested :
    let ts : List Token := [⟨.keyword .start, "start", 1⟩, ⟨.symbol, ":", 1⟩,
      ⟨.newline, "\n", 1⟩, ⟨.keyword .function, "function", 2⟩,
      ⟨.identifier, "f", 2⟩, ⟨.symbol, ":", 2⟩, ⟨.newline, "\n", 2⟩,
      ⟨.keyword .say, "say", 3⟩, ⟨.newline, "\n", 3⟩, ⟨.identifier, "g", 4⟩,
      ⟨.newline, "\n", 4⟩, ⟨.keyword .close, "end", 5⟩,
      ⟨.keyword .close, "end", 5⟩, ⟨.newline, "\n", 5⟩, .endOfInput 5]
    let unended := ts.take 11 ++ [.endOfInput 5]
    let literal : Token := ⟨.literal, "x", 4⟩
    let comma : Token := ⟨.symbol, ",", 4⟩
    let when : Token := ⟨.keyword .when, "if", 4⟩
    ofTokens 16 ts = .ok ⟨[.start [.function "f" none
        [.say [] "\\n", .call "g" none]]]⟩ ∧
      ofTokens 16 (ts.insertIdx 0 literal) = ofTokens 16 ts ∧
      ofTokens 16 (ts.insertIdx 9 comma) = ofTokens 16 ts ∧
      ofTokens 13 (unended.insertIdx 11 when) = .error (.unclosedBlock 2 5) := by
  intro ts unended literal comma when
  refine ⟨rfl, ?_, ?_, ?_⟩
  · exact ofTokens_insertIdx_stray (by decide) (.inl rfl)
      (.inr (.inr rfl)) (by decide)
  · exact ofTokens_insertIdx_stray (by decide) (.inr ⟨_, rfl, rfl⟩)
      (.inr (.inl rfl)) (by decide)
  · exact ofTokens_insertIdx_stray (by decide) (.inr ⟨_, rfl, rfl⟩)
      (.inl ⟨.when, rfl, rfl⟩) (by decide)

end SayScript
