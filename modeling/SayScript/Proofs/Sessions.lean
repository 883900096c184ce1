import SayScript.Proofs.Numbering
import SayScript.Proofs.Runs

/-! # Sessions

    What holds over any number of runs on one list of tokens, whether they
    give programs or faults.

    The tokens not used yet are always the end of the list, so the session
    stands at a position in it.  Each token that was taken moved the
    position by one, with one exception: when the tokens ran out in the
    middle of a statement, one end of input more was taken.  This happens at
    most once, as a run that starts after the last token takes nothing.  The
    invariant is `Tracks`.

    A session has no memory but its position: the next run is the first run
    of a new session on the tokens that are left. -/

namespace SayScript

namespace Reader

variable {limit lastLine advances : Nat} {r q : Reader} {t : Token}
  {ts : List Token} {result : Except ReadFault Program} {uses : Bool}

/-- Did the run give a fault? -/
def Outcome.isFault (outcome : Outcome) : Bool :=
  match outcome.result with
  | .ok _ => false
  | .error _ => true

/-! ## Runs from the start of a program -/

/-- Outside all blocks and between statements, only the end of the input
    stops a reader. -/
theorem Stops.of_initial (h : Stops limit initial t result uses) :
    t.kind = .endOfInput ∧ result = .ok ⟨[]⟩ ∧ uses = false := by
  have hsettles : ∀ {q}, Settles initial t q → q = initial := by
    intro q hq
    cases hq with
    | idle _ => rfl
    | call hp _ => cases hp
  cases h with
  | full hq hfull =>
    rw [hsettles hq] at hfull
    cases hfull
  | inputEnd hq hkind =>
    rw [hsettles hq]
    exact ⟨hkind, rfl, rfl⟩
  | misfit hslot _ => cases hslot
  | unexpected hp _ _ => cases hp

/-- Where the input has ended, a run gives the empty program and takes no
    token. -/
theorem run_initial_of_ended (hts : ∀ t ∈ ts.head?, t.kind = .endOfInput) :
    initial.run limit lastLine advances ts = ⟨.ok ⟨[]⟩, ts, advances⟩ := by
  cases ts with
  | nil => rfl
  | cons t ts =>
    have hfeed : initial.feed limit t = .stop (.ok ⟨[]⟩) false :=
      feed_endOfInput rfl (hts t rfl)
    simp only [run, hfeed]

/-- A run that gives a program ends where the input has ended. -/
theorem ended_of_run_eq_ok {p : Program}
    (h : (r.run limit lastLine advances ts).result = .ok p) :
    ∀ t ∈ (r.run limit lastLine advances ts).rest.head?,
      t.kind = .endOfInput := by
  obtain ⟨used, q, left, -, -, hhalts⟩ :=
    exists_halts limit lastLine r advances ts
  generalize r.run limit lastLine advances ts = outcome at h hhalts ⊢
  intro t ht
  cases hhalts with
  | used hstops =>
    cases h
    obtain ⟨-, -, -, huses, -⟩ := feed_eq_stop_ok (feed_of_stops hstops)
    cases huses
  | left hstops =>
    cases h
    obtain ⟨-, -, hkind, -, -⟩ := feed_eq_stop_ok (feed_of_stops hstops)
    cases ht
    exact hkind
  | ranOut _ => cases ht
  | inSay _ => cases ht

/-- A run that gives a fault uses at least one token. -/
theorem length_rest_lt_of_run_eq_error {e : ReadFault}
    (h : (initial.run limit lastLine advances ts).result = .error e) :
    (initial.run limit lastLine advances ts).rest.length < ts.length := by
  obtain ⟨used, q, left, rfl, hreads, hhalts⟩ :=
    exists_halts limit lastLine initial advances ts
  generalize initial.run limit lastLine advances (used ++ left) = outcome
    at h hhalts ⊢
  cases hreads with
  | nil =>
    -- no token was used, so the reader would still be at the start, where
    -- nothing stops it with a fault
    have hfault : ∀ {t uses}, ¬ Stops limit initial t (.error e) uses := by
      intro t uses hstops
      cases hstops.of_initial.2.1
    cases hhalts with
    | used hstops => cases h; exact (hfault hstops).elim
    | left hstops => cases h; exact (hfault hstops).elim
    | ranOut hstops => cases h; exact (hfault hstops).elim
    | inSay hmoves =>
      obtain ⟨_, _, hp, -⟩ := hmoves.eq_of_endOfInput rfl
      cases hp
  | cons _ _ =>
    cases hhalts with
    | used _ => simp only [List.length_append, List.length_cons]; omega
    | left _ => simp only [List.length_append, List.length_cons]; omega
    | ranOut _ => simp
    | inSay _ => simp

/-! ## Counting -/

/-- A reader that halts takes a token for each one it uses, and one more if
    the tokens ran out in the middle of a statement. -/
theorem Halts.advances_eq {left : List Token} {outcome : Outcome}
    (h : Halts limit lastLine q advances left outcome) :
    ∃ used, left = used ++ outcome.rest ∧
      (outcome.advances = advances + used.length ∨
        left = [] ∧ outcome.advances = advances + 1 ∧ q.pending ≠ .idle) := by
  cases h with
  | @used t ts _ _ => exact ⟨[t], rfl, .inl rfl⟩
  | left _ => exact ⟨[], rfl, .inl rfl⟩
  | @ranOut _ uses hstops =>
    refine ⟨[], rfl, ?_⟩
    cases uses with
    | false => exact .inl rfl
    | true =>
      refine .inr ⟨rfl, rfl, ?_⟩
      intro hidle
      cases hstops with
      | misfit hslot _ =>
        rw [hidle] at hslot
        cases hslot
  | inSay hmoves =>
    refine ⟨[], rfl, .inr ⟨rfl, rfl, ?_⟩⟩
    intro hidle
    obtain ⟨_, _, hp, -⟩ := hmoves.eq_of_endOfInput rfl
    rw [hidle] at hp
    cases hp

/-- A run takes a token for each one it uses.  It takes one more only if it
    uses all tokens and the last one ends neither a line nor the input. -/
theorem run_advances (limit lastLine advances : Nat) (ts : List Token)
    (hr : r.pending = .idle) :
    let outcome := r.run limit lastLine advances ts
    ∃ used, ts = used ++ outcome.rest ∧
      (outcome.advances = advances + used.length ∨
        outcome.rest = [] ∧ outcome.advances = advances + used.length + 1 ∧
        ∃ t, ts.getLast? = some t ∧
          ¬ (t.kind = .newline ∨ t.kind = .endOfInput)) := by
  intro outcome
  obtain ⟨used, q, left, hts, hreads, hhalts⟩ :=
    exists_halts limit lastLine r advances ts
  obtain ⟨used', hleft, hcount⟩ := hhalts.advances_eq
  refine ⟨used ++ used', by rw [hts, hleft, List.append_assoc], ?_⟩
  rw [List.length_append, ← Nat.add_assoc]
  rcases hcount with hcount | ⟨hnil, hcount, hp⟩
  · exact .inl hcount
  · rw [hnil, eq_comm, List.append_eq_nil_iff] at hleft
    obtain ⟨rfl, hrest⟩ := hleft
    refine .inr ⟨hrest, hcount, ?_⟩
    rw [hnil, List.append_nil] at hts
    -- a chain that ends with a line would have left no statement open
    by_cases hlast : ∀ t ∈ used.getLast?,
        t.kind = .newline ∨ t.kind = .endOfInput
    · exact absurd (hreads.pending_of_lineEnd (fun _ => hr) hlast) hp
    · rw [hts]
      simpa using hlast

end Reader

/-! ## The invariant of a session -/

namespace Session

/-- The session after `n` runs. -/
def after (s : Session) : Nat → Session
  | 0 => s
  | n + 1 => (s.after n).advance

/-- The number of tokens used, when the session was started on `ts`. -/
def position (s : Session) (ts : List Token) : Nat :=
  ts.length - s.rest.length

variable {limit : Nat} {ts : List Token} {s : Session}

theorem rest_run_suffix (s : Session) : s.run.rest <:+ s.rest := by
  obtain ⟨used, hused, -⟩ := Reader.run_advances s.limit s.lastLine
    s.advances s.rest (r := .initial) rfl
  exact ⟨used, hused.symm⟩

/-- The session works on `ts`: what is left is the end of it, and as many
    tokens were taken as were used, or one more. -/
structure Tracks (limit : Nat) (ts : List Token) (s : Session) : Prop where
  limit_eq : s.limit = limit
  lastLine_eq : s.lastLine = Token.lastLine ts
  suffix : s.rest <:+ ts
  count : s.advances + s.rest.length = ts.length ∨
    s.rest = [] ∧ s.advances = ts.length + 1 ∧
      ∃ t, ts.getLast? = some t ∧ t.kind ≠ .endOfInput

namespace Tracks

theorem start (limit : Nat) (ts : List Token) :
    Tracks limit ts (Session.start limit ts) :=
  ⟨rfl, rfl, List.suffix_refl ts, .inl (Nat.zero_add _)⟩

theorem advance (h : Tracks limit ts s) : Tracks limit ts s.advance := by
  obtain ⟨used, hrest, hcount⟩ := Reader.run_advances s.limit s.lastLine
    s.advances s.rest (r := .initial) rfl
  have hrest : s.rest = used ++ s.run.rest := hrest
  have hlength : s.rest.length = used.length + s.run.rest.length := by
    rw [hrest, List.length_append]
  refine ⟨h.limit_eq, h.lastLine_eq, ?_, ?_⟩
  · exact s.rest_run_suffix.trans h.suffix
  · show s.run.advances + s.run.rest.length = _ ∨ s.run.rest = [] ∧
      s.run.advances = _ ∧ _
    rcases hcount with hcount | ⟨hnil, hcount, t, hlast, hkind⟩
    · -- as many tokens were taken in this run as were used
      have hcount : s.run.advances = s.advances + used.length := hcount
      rcases h.count with hbefore | ⟨hnil, hbefore, ht⟩
      · exact .inl (by omega)
      · have : s.run.rest = [] ∧ used = [] := by
          rw [hnil, eq_comm, List.append_eq_nil_iff] at hrest
          exact hrest.symm
        rw [this.2, List.length_nil] at hcount
        exact .inr ⟨this.1, by omega, ht⟩
    · -- the tokens ran out in this run, and not in an earlier one
      have hnil : s.run.rest = [] := hnil
      have hcount : s.run.advances = s.advances + used.length + 1 := hcount
      have hsome : s.rest ≠ [] := by
        intro hempty
        rw [hempty] at hlast
        cases hlast
      rw [hnil, List.length_nil] at hlength
      rcases h.count with hbefore | ⟨hempty, -, -⟩
      · refine .inr ⟨hnil, by omega, t, ?_, fun h' => hkind (.inr h')⟩
        obtain ⟨earlier, rfl⟩ := h.suffix
        rw [List.getLast?_append, hlast, Option.some_or]
      · exact absurd hempty hsome

theorem after (limit : Nat) (ts : List Token) (n : Nat) :
    Tracks limit ts ((Session.start limit ts).after n) := by
  induction n with
  | zero => exact .start limit ts
  | succ n ih => exact ih.advance

theorem rest_eq (h : Tracks limit ts s) :
    s.rest = ts.drop (s.position ts) :=
  List.suffix_iff_eq_drop.mp h.suffix

theorem position_add (h : Tracks limit ts s) :
    s.position ts + s.rest.length = ts.length := by
  have := h.suffix.length_le
  unfold position
  omega

theorem advances_eq (h : Tracks limit ts s) :
    s.advances = s.position ts ∨ s.advances = s.position ts + 1 := by
  have hposition := h.position_add
  rcases h.count with hcount | ⟨hnil, hcount, -⟩
  · exact .inl (by omega)
  · rw [hnil, List.length_nil] at hposition
    exact .inr (by omega)

theorem advances_le {t : Token} (h : Tracks limit ts s)
    (ht : ts.getLast? = some t) (hkind : t.kind = .endOfInput) :
    s.advances ≤ ts.length := by
  rcases h.count with hcount | ⟨-, -, t', ht', hother⟩
  · omega
  · obtain rfl : t = t' := Option.some.inj (ht.symm.trans ht')
    exact absurd hkind hother

/-- The next run is the first one of a new session on what is left.  The
    line that the tokens end on is the same, unless there are no more. -/
theorem run_eq (h : Tracks limit ts s) :
    s.run = { Program.read limit s.rest with
      advances := s.advances + (Program.read limit s.rest).advances } := by
  have hfresh : ∀ lastLine,
      Reader.initial.run limit lastLine s.advances s.rest =
        { Reader.initial.run limit lastLine 0 s.rest with
          advances := s.advances +
            (Reader.initial.run limit lastLine 0 s.rest).advances } :=
    fun lastLine => Reader.run_add s.advances 0
  cases hrest : s.rest with
  | nil =>
    rw [run, hrest]
    rfl
  | cons t rest =>
    have hline : s.lastLine = Token.lastLine s.rest := by
      obtain ⟨earlier, hts⟩ := h.suffix
      rw [h.lastLine_eq, ← hts]
      exact Token.lastLine_append earlier (by simp [hrest])
    rw [run, h.limit_eq, hline, hfresh, ← hrest]
    rfl

end Tracks

/-! ## Progress -/

/-- The next run comes to an end: it is a chain of moves, one for each of
    its tokens, after which the reader halts. -/
def Terminates (s : Session) : Prop :=
  ∃ used q left, s.rest = used ++ left ∧
    Reader.Reads s.limit .initial used q ∧
    Reader.Halts s.limit s.lastLine q (s.advances + used.length) left s.run

/-- In a script nothing is open when the input ends, so that the end of the
    input is all that a run leaves. -/
theorem rest_of_ofScript {script : String} {p : Program}
    (hts : Token.ofScript script = .ok ts)
    (h : (Program.read limit ts).result = .ok p) :
    ∃ e, (Program.read limit ts).rest = [e] := by
  obtain ⟨body, -, hlines, rfl⟩ := Token.exists_wholeLines_of_ofScript hts
  obtain ⟨used, q, -, hused, hreads, -⟩ := Reader.run_eq_ok h
  have hended := Reader.ended_of_run_eq_ok h
  change ∀ t ∈ (Program.read limit _).rest.head?, _ at hended
  change body ++ _ = used ++ (Program.read limit _).rest at hused
  rcases List.eq_nil_or_concat (Program.read limit _).rest with
    hnil | ⟨rest, e, hrest⟩
  · -- all tokens used: the end of the input would have ended a `say`
    rw [hnil, List.append_nil] at hused
    rw [← hused] at hreads
    obtain ⟨q', hbody, hend⟩ := hreads.of_append
    have hidle := hbody.pending_of_lineEnd (fun _ => rfl)
      (fun t ht => .inl (hlines.newline t ht))
    cases hend with
    | cons hmove _ =>
      obtain ⟨_, _, hsay, -⟩ := hmove.eq_of_endOfInput rfl
      rw [hidle] at hsay
      cases hsay
  · refine ⟨e, ?_⟩
    rw [List.concat_eq_append] at hrest
    rw [hrest, ← List.append_assoc] at hused
    obtain ⟨hbody, -⟩ := List.append_inj' hused rfl
    cases rest with
    | nil => rw [hrest, List.nil_append]
    | cons t rest =>
      have ht : t ∈ body := by simp [hbody]
      exact absurd (hended t (by simp [hrest])) (hlines.noEnd t ht)

theorem advances_of_ofScript {script : String} {p : Program}
    (hts : Token.ofScript script = .ok ts)
    (h : (Program.read limit ts).result = .ok p) :
    (Program.read limit ts).advances = ts.length - 1 := by
  obtain ⟨e, hrest⟩ := rest_of_ofScript hts h
  have htracks := (Tracks.start limit ts).advance
  have hnext : (Session.start limit ts).advance.rest = [e] := hrest
  have hcount := htracks.count
  rw [hnext] at hcount
  have hcount : (Program.read limit ts).advances + 1 = ts.length := by
    rcases hcount with hcount | ⟨hnil, -⟩
    · exact hcount
    · cases hnil
  omega

/-- What holds of a session on `ts` as it goes forward. -/
structure Progresses (limit : Nat) (ts : List Token) (s : Session) : Prop where
  terminates : s.Terminates
  position_le : s.position ts ≤ ts.length
  rest_eq : s.rest = ts.drop (s.position ts)
  /-- As many tokens were taken as were used, or one more. -/
  advances_eq : s.advances = s.position ts ∨ s.advances = s.position ts + 1
  advances_le : s.advances ≤ ts.length + 1
  /-- No token more is taken than the list has if it ends with the end of the
      input. -/
  advances_le_of_last : ∀ t, ts.getLast? = some t → t.kind = .endOfInput →
    s.advances ≤ ts.length
  /-- A first run that gives a program takes all tokens of a script but the
      last one. -/
  advances_of_script : ∀ script p, Token.ofScript script = .ok ts →
    (Program.read limit ts).result = .ok p →
    (Program.read limit ts).advances = ts.length - 1

/-- **Forward progress.**  A session goes forward whatever the tokens are,
    and after any number of runs with or without faults. -/
theorem progress (limit : Nat) (ts : List Token) (n : Nat) :
    Progresses limit ts ((Session.start limit ts).after n) := by
  have htracks := Tracks.after limit ts n
  generalize (Session.start limit ts).after n = s at htracks ⊢
  have hposition := htracks.position_add
  have hcount := htracks.advances_eq
  refine ⟨Reader.exists_halts _ _ _ _ _, ?_, htracks.rest_eq, hcount, ?_, ?_, ?_⟩
  · omega
  · omega
  · exact fun t => htracks.advances_le
  · exact fun script p => advances_of_ofScript

/-- The input ends inside a list of tokens and a `say` goes past it; then the
    tokens run out after `function`, and one token more is taken.  Of the
    tokens of a script the last one is left. -/
theorem progress_ranOut :
    let ts : List Token := [⟨.keyword .say, "say", 1⟩, ⟨.endOfInput, "", 1⟩,
      ⟨.keyword .function, "function", 7⟩]
    let s := (Session.start 0 ts).after 2
    s.Terminates ∧ s.position ts = 3 ∧ s.advances = 4 ∧
      s.advances ≤ ts.length + 1 ∧
    let ts' : List Token := [⟨.keyword .say, "say", 2⟩,
      ⟨.identifier, "x", 2⟩, ⟨.newline, "\n", 2⟩, ⟨.endOfInput, "", 2⟩]
    Token.ofScript "\n say x \n" = .ok ts' ∧
      ((Session.start 0 ts').after 5).advances ≤ 4 ∧
      (Program.read 0 ts').advances = 3 := by
  intro ts s
  have hruns := progress 0 ts 2
  refine ⟨hruns.terminates, rfl, rfl, hruns.advances_le, ?_⟩
  intro ts'
  have hscript : Token.ofScript "\n say x \n" = .ok ts' := by decide +kernel
  have hruns := progress 0 ts' 5
  exact ⟨hscript, hruns.advances_le_of_last _ rfl rfl,
    hruns.advances_of_script _ ⟨[.say [.var "x"] "\\n"]⟩ hscript rfl⟩

/-! ## Resuming -/

theorem position_lt_of_error {e : ReadFault} (h : Tracks limit ts s)
    (he : s.run.result = .error e) :
    s.position ts < s.advance.position ts := by
  have hshorter : s.run.rest.length < s.rest.length :=
    Reader.length_rest_lt_of_run_eq_error he
  have hbefore := h.position_add
  have hafter : s.advance.position ts + s.run.rest.length = ts.length :=
    h.advance.position_add
  omega

/-- There are no more runs that give a fault than tokens left. -/
theorem countP_isFault_le (s : Session) (n : Nat) :
    (s.outcomes n).countP Reader.Outcome.isFault ≤ s.rest.length := by
  induction n generalizing s with
  | zero => simp [outcomes]
  | succ n ih =>
    have hrest : (s.advance.outcomes n).countP Reader.Outcome.isFault ≤
        s.run.rest.length := ih s.advance
    rw [outcomes, List.countP_cons]
    cases hresult : s.run.result with
    | error e =>
      have hshorter : s.run.rest.length < s.rest.length :=
        Reader.length_rest_lt_of_run_eq_error hresult
      simp only [Reader.Outcome.isFault, hresult, if_true]
      omega
    | ok p =>
      have hle := s.rest_run_suffix.length_le
      simp only [Reader.Outcome.isFault, hresult, Bool.false_eq_true, if_false]
      omega

/-- After a run that gave a program nothing is read any more. -/
theorem run_advance_of_ok {p : Program} (h : s.run.result = .ok p) :
    s.advance.run = ⟨.ok ⟨[]⟩, s.advance.rest, s.advance.advances⟩ :=
  Reader.run_initial_of_ended (Reader.ended_of_run_eq_ok h)

theorem advance_advance_of_ok {p : Program} (h : s.run.result = .ok p) :
    s.advance.advance = s.advance := by
  calc s.advance.advance
      = { s.advance with
          rest := s.advance.run.rest, advances := s.advance.run.advances } :=
        rfl
    _ = s.advance := by rw [run_advance_of_ok h]

theorem after_of_ok {p : Program} {n m : Nat}
    (h : (s.after n).run.result = .ok p) (hm : n < m) :
    s.after m = (s.after n).advance := by
  induction m with
  | zero => omega
  | succ m ih =>
    rw [after]
    by_cases hlast : n = m
    · rw [hlast]
    · rw [ih (by omega), advance_advance_of_ok h]

/-- **A session can be resumed anywhere.**  After any number of runs, the
    next one gives the same as the first run of a new session on the tokens
    left, and takes as many.  A run that gives a fault moves the position, so
    that at most as many runs as there are tokens do.  After a run that gives
    a program, every run gives the empty program and takes no token. -/
theorem resume (limit : Nat) (ts : List Token) (n : Nat) :
    let s := (Session.start limit ts).after n
    let fresh := Program.read limit (ts.drop (s.position ts))
    s.run.result = fresh.result ∧ s.run.rest = fresh.rest ∧
    s.run.advances = s.advances + fresh.advances ∧
    (∀ e, s.run.result = .error e →
      s.position ts < s.advance.position ts) ∧
    ((Session.start limit ts).outcomes n).countP Reader.Outcome.isFault ≤
      ts.length ∧
    (∀ p m, s.run.result = .ok p → n < m →
      ((Session.start limit ts).after m).run.result = .ok ⟨[]⟩ ∧
      ((Session.start limit ts).after m).run.advances = s.run.advances) := by
  intro s fresh
  have htracks : Tracks limit ts s := .after limit ts n
  have hrun : s.run =
      { fresh with advances := s.advances + fresh.advances } := by
    rw [htracks.run_eq, htracks.rest_eq]
  refine ⟨by rw [hrun], by rw [hrun], by rw [hrun],
    fun e => position_lt_of_error htracks,
    countP_isFault_le (Session.start limit ts) n, ?_⟩
  intro p m hok hm
  rw [after_of_ok hok hm, run_advance_of_ok hok]
  exact ⟨rfl, rfl⟩

/-- A fault in the middle of a block, after which the rest of the block is
    read as a program of its own. -/
theorem resume_inBlock :
    let ts : List Token := [⟨.keyword .start, "start", 1⟩, ⟨.symbol, ":", 1⟩,
      ⟨.keyword .set, "set", 2⟩, ⟨.literal, "x", 2⟩, ⟨.identifier, "a", 3⟩,
      ⟨.keyword .close, "end", 4⟩, ⟨.endOfInput, "", 4⟩]
    let s := Session.start 9 ts
    s.run.result = .error (.expected .variableName "\"x\"" 2) ∧
      s.position ts < s.advance.position ts ∧
    s.advance.run.result = (Program.read 9 (ts.drop 4)).result ∧
    s.advance.run.result = .ok ⟨[.call "a" none]⟩ ∧
      (s.outcomes 3).countP Reader.Outcome.isFault ≤ 7 ∧
    (s.after 8).run.result = .ok ⟨[]⟩ ∧ (s.after 8).run.advances = 6 := by
  intro ts s
  have hfault : s.run.result = .error (.expected .variableName "\"x\"" 2) :=
    rfl
  have hok : s.advance.run.result = .ok ⟨[.call "a" none]⟩ := rfl
  obtain ⟨-, -, -, hmoves, -⟩ := resume 9 ts 0
  obtain ⟨hfresh, -, -, -, -, hlater⟩ := resume 9 ts 1
  obtain ⟨-, -, -, -, hcount, -⟩ := resume 9 ts 3
  obtain ⟨hempty, hadvances⟩ := hlater _ 8 hok (by decide)
  exact ⟨hfault, hmoves _ hfault, hfresh, hok, hcount, hempty, hadvances⟩

end Session

end SayScript
