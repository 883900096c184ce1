import SayScript.Proofs.Nodes
import SayScript.Proofs.Runs

/-! # The limit on blocks

    A reader stops between statements when the block it is in has more items
    than the limit allows.  Three things follow, each proved move by move.

    A smaller limit gives the same run or one that stops at the limit:
    `run_le`.  No other difference is possible, as the limit is looked at
    only to stop.

    A program that was read has no block larger than the limit, at any
    depth: `fits_of_result`.  The invariant, `Within`, says that every open
    level counted its statements among its items and that the blocks closed
    so far fit.

    An item takes a token at least, so that a limit as large as the number of
    tokens is never reached: `result_ne_blockLimit`.  The invariant is
    `Counted`. -/

namespace SayScript

/-! ## Blocks that fit -/

namespace Program

variable {limit : Nat}

theorem fits_append {ss rest : List Statement} :
    Fits limit ⟨ss ++ rest⟩ ↔ Fits limit ⟨ss⟩ ∧ Fits limit ⟨rest⟩ := by
  simp only [Fits, bodies, nodes, Statement.nodesOf_append,
    List.filterMap_append, List.mem_append]
  constructor
  · intro h
    exact ⟨fun body hbody => h body (.inl hbody),
      fun body hbody => h body (.inr hbody)⟩
  · rintro ⟨hss, hrest⟩ body (hbody | hbody)
    · exact hss body hbody
    · exact hrest body hbody

/-- A statement fits if its body does, and all that is in it. -/
theorem fits_singleton {s : Statement} :
    Fits limit ⟨[s]⟩ ↔
      ∀ body ∈ s.body?, body.length ≤ limit ∧ Fits limit ⟨body⟩ := by
  simp only [Fits, bodies, nodes, Statement.nodesOf_cons,
    Statement.nodesOf_nil, List.append_nil]
  rw [Statement.nodes_eq]
  cases hbody : s.body? with
  | none => simp [hbody]
  | some body => simp [hbody]

/-- Every program fits under some limit. -/
theorem exists_fits (limit : Nat) (p : Program) :
    ∃ larger, limit ≤ larger ∧ p.Fits larger := by
  let largest := (p.bodies.map List.length).max?.getD 0
  refine ⟨max limit largest, Nat.le_max_left _ _, ?_⟩
  intro body hbody
  have hle : body.length ≤ largest :=
    List.le_max?_getD_of_mem (List.mem_map_of_mem hbody)
  exact Nat.le_trans hle (Nat.le_max_right _ _)

end Program

variable {limit larger lastLine : Nat} {r q : Reader} {t : Token}
  {ts : List Token} {p : Program}

namespace Reader

/-! ## Smaller limits -/

theorem isOverfull_le (hle : limit ≤ larger)
    (hroom : r.isOverfull limit = false) : r.isOverfull larger = false := by
  simp only [isOverfull, Bool.and_eq_false_iff, decide_eq_false_iff_not]
    at hroom ⊢
  rcases hroom with hblocks | hitems
  · exact .inl hblocks
  · exact .inr (by omega)

theorem conclude_le (hle : limit ≤ larger) (line : Nat) :
    r.conclude limit line = r.conclude larger line ∨
      r.conclude limit line = .error (.blockLimit limit line) := by
  cases hroom : r.isOverfull limit with
  | true => exact .inr (by rw [conclude, if_pos hroom])
  | false =>
    left
    rw [conclude, conclude, if_neg (by simp [hroom]),
      if_neg (by simp [isOverfull_le hle hroom])]

theorem begin_le (hle : limit ≤ larger) :
    r.begin limit t = r.begin larger t ∨
      r.begin limit t = .stop (.error (.blockLimit limit t.line)) false := by
  cases hroom : r.isOverfull limit with
  | true => exact .inr (by rw [begin, if_pos hroom])
  | false =>
    left
    have hlarger := isOverfull_le hle hroom
    rw [begin, begin, if_neg (by simp [hroom]), if_neg (by simp [hlarger]),
      conclude, conclude, if_neg (by simp [hroom]), if_neg (by simp [hlarger])]

/-- Only the start of a statement looks at the limit. -/
theorem feed_le (hle : limit ≤ larger) :
    r.feed limit t = r.feed larger t ∨
      r.feed limit t = .stop (.error (.blockLimit limit t.line)) false := by
  unfold feed
  split
  -- between statements, and after a call that is complete
  case h_1 => exact begin_le hle
  case h_10 =>
    split
    · exact .inl rfl
    · exact begin_le hle
  all_goals exact .inl rfl

/-- Under a smaller limit a run is the same, or stops at the limit. -/
theorem run_le (hle : limit ≤ larger) (advances : Nat) :
    r.run limit lastLine advances ts = r.run larger lastLine advances ts ∨
      ∃ line, (r.run limit lastLine advances ts).result =
        .error (.blockLimit limit line) := by
  induction ts generalizing r advances with
  | nil =>
    simp only [run]
    rcases feed_le hle with hfeed | hfeed
    · rw [hfeed]
      cases r.feed larger (.endOfInput lastLine) with
      | stop result uses => exact .inl rfl
      | next q =>
        rcases q.conclude_le hle lastLine with hsame | hlimit
        · exact .inl (by simp only [hsame])
        · exact .inr ⟨lastLine, hlimit⟩
    · exact .inr ⟨lastLine, by rw [hfeed]; rfl⟩
  | cons t ts ih =>
    simp only [run]
    rcases feed_le (r := r) (t := t) hle with hfeed | hfeed
    · rw [hfeed]
      cases r.feed larger t with
      | stop result uses => cases uses <;> exact .inl rfl
      | next q => exact ih _
    · exact .inr ⟨t.line, by rw [hfeed]⟩

end Reader

/-! ## What was read fits -/

/-- The level counted its statements, and the blocks in it fit. -/
structure Level.Within (limit : Nat) (l : Level) : Prop where
  counted : l.body.length ≤ l.items
  fits : Program.Fits limit ⟨l.body⟩

/-- All levels of the reader are within the limit. -/
structure Reader.Within (limit : Nat) (r : Reader) : Prop where
  level : r.level.Within limit
  outer : ∀ b ∈ r.blocks, b.outer.Within limit

theorem Level.Within.empty (limit : Nat) : Level.empty.Within limit := by
  refine ⟨Nat.le_refl 0, ?_⟩
  intro body hbody
  cases hbody

theorem Level.Within.push {l : Level} {s : Statement}
    (h : l.Within limit) (hs : Program.Fits limit ⟨[s]⟩) :
    (l.push s).Within limit := by
  constructor
  · have := h.counted
    simp only [body_push, items_push, List.length_append,
      List.length_singleton]
    omega
  · rw [body_push, Program.fits_append]
    exact ⟨h.fits, hs⟩

theorem Level.Within.skip {l : Level} (h : l.Within limit) :
    l.skip.Within limit :=
  ⟨Nat.le_succ_of_le h.counted, h.fits⟩

namespace Reader

theorem Within.initial (limit : Nat) : Reader.initial.Within limit :=
  ⟨.empty limit, by intro b hb; cases hb⟩

/-- A statement without a body always fits. -/
theorem Within.complete {s : Statement} (h : r.Within limit)
    (hs : s.body? = none) : (r.complete s).Within limit := by
  refine ⟨h.level.push ?_, h.outer⟩
  rw [Program.fits_singleton, hs]
  intro body hbody
  cases hbody

theorem Within.enter (h : r.Within limit) (header : Header) (line : Nat) :
    (r.enter header line).Within limit := by
  refine ⟨.empty limit, ?_⟩
  intro b hb
  rcases List.mem_cons.mp hb with rfl | hb
  · exact h.level
  · exact h.outer b hb

/-- A block is closed only if it is not overfull, so it fits. -/
theorem Within.leave (h : r.Within limit)
    (hroom : r.isOverfull limit = false) : r.leave.Within limit := by
  unfold Reader.leave
  split
  · exact ⟨h.level.skip, h.outer⟩
  · rename_i b outer hblocks
    -- its statements are among its items, of which there are not too many
    have hlength : r.level.body.length ≤ limit := by
      have := h.level.counted
      simp [isOverfull, hblocks] at hroom
      omega
    have hblock : Program.Fits limit ⟨[b.header.block r.level.body]⟩ := by
      rw [Program.fits_singleton]
      intro body hbody
      have : body = r.level.body := by
        cases hheader : b.header <;> simp_all [Header.block, Statement.body?]
      rw [this]
      exact ⟨hlength, h.level.fits⟩
    have houter : ∀ b ∈ r.blocks, b.outer.Within limit := h.outer
    rw [hblocks] at houter
    exact ⟨(houter b List.mem_cons_self).push hblock,
      fun b' hb' => houter b' (List.mem_cons_of_mem _ hb')⟩

theorem Within.settles (h : r.Within limit) (hsettles : Settles r t q) :
    q.Within limit := by
  cases hsettles with
  | idle _ => exact h
  | call _ _ => exact h.complete rfl

theorem Within.moves (h : r.Within limit) (hmove : Moves limit r t q) :
    q.Within limit := by
  cases hmove with
  | begins hsettles hroom hbegins =>
    have hq := h.settles hsettles
    cases hbegins with
    | close _ => exact hq.leave hroom
    | stray _ => exact ⟨hq.level.skip, hq.outer⟩
    | newline _ => exact hq
    | _ => exact ⟨hq.level, hq.outer⟩
  | colon _ _ => exact h.enter _ _
  | lineEnd _ _ => exact h.complete rfl
  | terminator _ _ => exact h.complete rfl
  | set _ _ => exact h.complete rfl
  | argument _ _ => exact h.complete rfl
  | _ => exact ⟨h.level, h.outer⟩

theorem Within.reads (h : r.Within limit) (hreads : Reads limit r ts q) :
    q.Within limit := by
  induction hreads with
  | nil => exact h
  | cons hmove _ ih => exact ih (h.moves hmove)

/-- The blocks of a program that was read fit. -/
theorem fits_of_result (h : r.Within limit)
    (hresult : r.result limit lastLine ts = .ok p) : p.Fits limit := by
  obtain ⟨used, q, q', -, hreads, ⟨t, -, hends⟩, -, rfl⟩ := run_eq_ok hresult
  have hq := h.reads hreads
  have hq' : q'.Within limit := by
    rcases hends with hsettles | hmove
    · exact hq.settles hsettles
    · exact hq.moves hmove
  exact hq'.level.fits

end Reader

/-! ## Limits that are never reached -/

/-- The number of items to come for a statement that was begun. -/
def Pending.begun : Pending → Nat
  | idle => 0
  | _ => 1

/-- After `n` tokens each level has at most `n` items, the statement that was
    begun included.  A level around a block has fewer, as the block is an
    item of it that is still to be counted. -/
structure Reader.Counted (n : Nat) (r : Reader) : Prop where
  level : r.level.items + r.pending.begun ≤ n
  outer : ∀ b ∈ r.blocks, b.outer.items < n

namespace Reader

variable {n : Nat}

theorem Counted.initial : Reader.initial.Counted 0 :=
  ⟨Nat.le_refl 0, by intro b hb; cases hb⟩

/-- One token more leaves room for one item more. -/
theorem Counted.succ (h : r.Counted n) : r.Counted (n + 1) :=
  ⟨Nat.le_succ_of_le h.level, fun b hb => Nat.lt_succ_of_lt (h.outer b hb)⟩

/-- A statement that was begun is counted already. -/
theorem Counted.complete (h : r.Counted n) (hp : r.pending.begun = 1)
    (s : Statement) : (r.complete s).Counted n := by
  refine ⟨?_, h.outer⟩
  have hlevel := h.level
  rw [hp] at hlevel
  exact hlevel

theorem Counted.await (h : r.Counted n) (p : Pending) :
    (r.await p).Counted (n + 1) := by
  refine ⟨?_, h.succ.outer⟩
  have hlevel := h.level
  have hp : p.begun ≤ 1 := by
    unfold Pending.begun
    split <;> decide
  simp only [await_level, await_pending]
  omega

theorem Counted.enter (h : r.Counted n) (hp : r.pending.begun = 1)
    (header : Header) (line : Nat) : (r.enter header line).Counted n := by
  refine ⟨Nat.zero_le n, ?_⟩
  intro b hb
  rcases List.mem_cons.mp hb with rfl | hb
  · have hlevel := h.level
    rw [hp] at hlevel
    exact hlevel
  · exact h.outer b hb

theorem Counted.leave (h : r.Counted n) : r.leave.Counted (n + 1) := by
  have hlevel := h.level
  unfold Reader.leave
  split
  · refine ⟨?_, h.succ.outer⟩
    simp only [skip_level, Level.items_skip, skip_pending]
    omega
  · rename_i b outer hblocks
    have houter : ∀ b' ∈ b :: outer, b'.outer.items < n + 1 :=
      hblocks ▸ h.succ.outer
    refine ⟨houter b List.mem_cons_self, ?_⟩
    intro b' hb'
    exact houter b' (List.mem_cons_of_mem b hb')

theorem Counted.settles (h : r.Counted n) (hsettles : Settles r t q) :
    q.Counted n := by
  cases hsettles with
  | idle _ => exact h
  | call hp _ => exact h.complete (by rw [hp]; rfl) _

theorem Counted.begins (h : r.Counted n) (hbegins : Begins r t q) :
    q.Counted (n + 1) := by
  cases hbegins with
  | newline _ => exact h.succ
  | close _ => exact h.leave
  | stray _ =>
    refine ⟨?_, h.succ.outer⟩
    have hlevel := h.level
    simp only [skip_level, Level.items_skip, skip_pending]
    omega
  | _ => exact h.await _

theorem Counted.moves (h : r.Counted n) (hmove : Moves limit r t q) :
    q.Counted (n + 1) := by
  cases hmove with
  | begins hsettles _ hbegins =>
    exact (h.settles hsettles).begins hbegins
  | colon hp _ =>
    refine (h.enter ?_ _ _).succ
    unfold Pending.header? at hp
    split at hp <;> cases hp <;> simp [*, Pending.begun]
  | lineEnd hp _ => exact (h.complete (by rw [hp]; rfl) _).succ
  | terminator hp _ => exact (h.complete (by rw [hp]; rfl) _).succ
  | set hp _ => exact (h.complete (by rw [hp]; rfl) _).succ
  | argument hp _ => exact (h.complete (by rw [hp]; rfl) _).succ
  | _ => exact h.await _

theorem Counted.reads (h : r.Counted n) (hreads : Reads limit r ts q) :
    q.Counted (n + ts.length) := by
  induction hreads generalizing n with
  | nil => exact h
  | @cons _ _ _ _ ts hmove _ ih =>
    have hq := ih (h.moves hmove)
    rwa [Nat.add_assoc, Nat.add_comm 1] at hq

theorem Counted.isOverfull (h : r.Counted n) (hn : n ≤ limit) :
    r.isOverfull limit = false := by
  have hlevel := h.level
  simp only [Reader.isOverfull, Bool.and_eq_false_iff, decide_eq_false_iff_not]
  exact .inr (by omega)

theorem conclude_ne_blockLimit (hroom : r.isOverfull limit = false)
    (line m line' : Nat) :
    r.conclude limit line ≠ .error (.blockLimit m line') := by
  intro h
  unfold conclude at h
  rw [if_neg (by simp [hroom])] at h
  split at h <;> cases h

/-- With room for an item for each token, the limit stops nothing. -/
theorem Counted.stops {result : Except ReadFault Program} {uses : Bool}
    (h : r.Counted n) (hn : n ≤ limit) (hstops : Stops limit r t result uses)
    (m line : Nat) : result ≠ .error (.blockLimit m line) := by
  cases hstops with
  | full hsettles hfull =>
    have hroom := (h.settles hsettles).isOverfull hn
    rw [hroom] at hfull
    cases hfull
  | inputEnd hsettles _ =>
    exact conclude_ne_blockLimit ((h.settles hsettles).isOverfull hn) _ _ _
  | misfit _ _ => simp
  | unexpected _ _ _ => simp

theorem result_ne_blockLimit (hlimit : ts.length ≤ limit) (m line : Nat) :
    initial.result limit lastLine ts ≠ .error (.blockLimit m line) := by
  obtain ⟨used, q, left, rfl, hreads, hhalts⟩ :=
    exists_halts limit lastLine initial 0 ts
  have hq := Counted.initial.reads hreads
  have hused : 0 + used.length ≤ limit := by
    rw [List.length_append] at hlimit
    omega
  unfold result
  generalize initial.run limit lastLine 0 (used ++ left) = outcome at hhalts ⊢
  cases hhalts with
  | used hstops => exact hq.stops hused hstops m line
  | left hstops => exact hq.stops hused hstops m line
  | ranOut hstops => exact hq.stops hused hstops m line
  | inSay hmoves =>
    -- the end of the input only completes a `say`, which was begun before
    obtain ⟨fragments, _, hp, rfl⟩ := hmoves.eq_of_endOfInput rfl
    have hcomplete := hq.complete (by rw [hp]; rfl)
      (.say fragments.reverse Statement.defaultTerminator)
    exact conclude_ne_blockLimit (hcomplete.isOverfull hused) _ _ _

end Reader

/-- **The limit only cuts runs short.**  Under a smaller limit the same is
    read, with the same tokens used, or reading stops at that limit.  A
    program that was read has no larger block at any depth.  A limit as large
    as the number of tokens is never reached. -/
theorem Program.read_of_limit_le {limit larger : Nat} (ts : List Token)
    (hle : limit ≤ larger) :
    (read limit ts = read larger ts ∨
      ∃ line, (read limit ts).result = .error (.blockLimit limit line)) ∧
    (∀ p, (read limit ts).result = .ok p → p.Fits limit) ∧
    (ts.length ≤ limit →
      ∀ m line, (read limit ts).result ≠ .error (.blockLimit m line)) := by
  refine ⟨Reader.run_le hle 0, ?_, ?_⟩
  · intro p hp
    exact Reader.fits_of_result (.initial limit) hp
  · intro hlimit m line
    exact Reader.result_ne_blockLimit hlimit m line

/-- A block in a block.  The inner one has two statements and a stray symbol,
    so that it fits under 2 as a body and not as it was read. -/
theorem Program.read_of_limit_le_nested :
    let ts : List Token := [⟨.keyword .start, "start", 1⟩, ⟨.symbol, ":", 1⟩,
      ⟨.keyword .start, "start", 2⟩, ⟨.symbol, ":", 2⟩,
      ⟨.identifier, "a", 3⟩, ⟨.newline, "\n", 3⟩, ⟨.identifier, "b", 4⟩,
      ⟨.symbol, "=", 4⟩, ⟨.newline, "\n", 4⟩, ⟨.keyword .close, "end", 5⟩,
      ⟨.keyword .close, "end", 6⟩]
    let p : Program := ⟨[.start [.start [.call "a" none, .call "b" none]]]⟩
    (read 3 ts).result = .ok p ∧ p.Fits 3 ∧ read 3 ts = read 11 ts ∧
    (read 2 ts).result = .error (.blockLimit 2 4) ∧ read 2 ts ≠ read 11 ts ∧
    ∀ m line, (read 11 ts).result ≠ .error (.blockLimit m line) := by
  intro ts p
  have hok : (read 3 ts).result = .ok p := rfl
  have hcut : (read 2 ts).result = .error (.blockLimit 2 4) := rfl
  obtain ⟨hsame, hfits, -⟩ := read_of_limit_le ts (by decide : 3 ≤ 11)
  obtain ⟨-, -, hnever⟩ := read_of_limit_le ts (Nat.le_refl 11)
  have hnever := hnever (Nat.le_refl 11)
  refine ⟨hok, hfits p hok, ?_, hcut, ?_, hnever⟩
  · rcases hsame with hsame | ⟨line, hline⟩
    · exact hsame
    · rw [hok] at hline
      cases hline
  · intro hsame
    rw [hsame] at hcut
    exact hnever _ _ hcut

end SayScript
