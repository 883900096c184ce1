import SayScript.Compile
import SayScript.Proofs.Lines
import SayScript.Proofs.Lowering
import SayScript.Proofs.Relabelling

/-! # Scripts one after the other

    When a script is made of whole lines, another script can be put behind
    it.  The first one leaves no trace but two: its statements come first,
    and the lines of the second one have higher numbers.

    The reader has come back to where it started, except for what it has
    read of the top level.  `r.onto base` is the reader `r` with the level
    `base` under all it has read.  What `r` does, `r.onto base` does too, so
    that the level only shows in the program. -/

namespace SayScript

/-! ## Reading on top of what was read -/

/-- The level `l`, read after the level `base`. -/
def Level.onto (l base : Level) : Level where
  statements := l.statements ++ base.statements
  items := base.items + l.items

theorem Level.body_onto (l base : Level) :
    (l.onto base).body = base.body ++ l.body := by
  simp [body, onto]

/-- The program with the statements of the level before its own. -/
def Program.onto (base : Level) (p : Program) : Program :=
  { statements := base.body ++ p.statements }

/-- The blocks with `base` under the level around the outermost one. -/
def OpenBlock.allOnto (base : Level) : List OpenBlock → List OpenBlock
  | [] => []
  | [b] => [{ b with outer := b.outer.onto base }]
  | b :: c :: rest => b :: allOnto base (c :: rest)

namespace Reader

/-- The reader with `base` under all it has read. -/
def onto (base : Level) (r : Reader) : Reader where
  pending := r.pending
  level := match r.blocks with
    | [] => r.level.onto base
    | _ :: _ => r.level
  blocks := OpenBlock.allOnto base r.blocks

variable {limit lastLine advances : Nat} {base : Level} {r q : Reader}
  {t : Token} {ts : List Token} {result : Except ReadFault Program}
  {uses : Bool}

theorem onto_complete (s : Statement) :
    (r.complete s).onto base = (r.onto base).complete s := by
  obtain ⟨pending, level, blocks⟩ := r
  cases blocks <;> rfl

theorem onto_skip : r.skip.onto base = (r.onto base).skip := by
  obtain ⟨pending, level, blocks⟩ := r
  cases blocks <;> rfl

theorem onto_enter (header : Header) (line : Nat) :
    (r.enter header line).onto base = (r.onto base).enter header line := by
  obtain ⟨pending, level, blocks⟩ := r
  cases blocks <;> rfl

theorem onto_leave : r.leave.onto base = (r.onto base).leave := by
  obtain ⟨pending, level, blocks⟩ := r
  match blocks with
  | [] => rfl
  | [b] => rfl
  | b :: c :: outer => rfl

@[simp] theorem isOverfull_onto :
    (r.onto base).isOverfull limit = r.isOverfull limit := by
  obtain ⟨pending, level, blocks⟩ := r
  match blocks with
  | [] => rfl
  | [b] => rfl
  | b :: c :: outer => rfl

theorem conclude_onto (line : Nat) :
    (r.onto base).conclude limit line =
      (r.conclude limit line).map (Program.onto base) := by
  unfold conclude
  rw [isOverfull_onto]
  split
  · rfl
  · obtain ⟨pending, level, blocks⟩ := r
    match blocks with
    | [] => simp [onto, OpenBlock.allOnto, Level.body_onto, Except.map,
        Program.onto]
    | [b] => rfl
    | b :: c :: outer => rfl

/-- At top level and between statements, all a reader knows is what it has
    read. -/
theorem eq_initial_onto (hp : r.pending = .idle) (hblocks : r.blocks = []) :
    r = initial.onto r.level := by
  obtain ⟨pending, level, blocks⟩ := r
  cases hp
  cases hblocks
  rfl

theorem Settles.onto (h : Settles r t q) :
    Settles (r.onto base) t (q.onto base) := by
  cases h with
  | idle hp => exact .idle hp
  | call hp hno =>
    rw [onto_complete]
    exact .call hp hno

theorem Begins.onto (h : Begins r t q) :
    Begins (r.onto base) t (q.onto base) := by
  cases h with
  | close hkind =>
    rw [onto_leave]
    exact .close hkind
  | stray hstray =>
    rw [onto_skip]
    exact .stray hstray
  | newline hkind => exact .newline hkind
  | call hkind => exact .call hkind
  | function hkind => exact .function hkind
  | start hkind => exact .start hkind
  | say hkind => exact .say hkind
  | set hkind => exact .set hkind

/-- A move on top of a level is a move. -/
theorem Moves.onto (h : Moves limit r t q) :
    Moves limit (r.onto base) t (q.onto base) := by
  cases h with
  | begins hsettles hroom hbegins =>
    exact .begins hsettles.onto (by simpa using hroom) hbegins.onto
  | functionName hp hkind => exact .functionName hp hkind
  | parameter hp hkind => exact .parameter hp hkind
  | colon hp hcolon =>
    rw [onto_enter]
    exact .colon hp hcolon
  | fragment hp ho => exact .fragment hp ho
  | comma hp hcomma => exact .comma hp hcomma
  | lineEnd hp hkind =>
    rw [onto_complete]
    exact .lineEnd hp hkind
  | sayEnd hp hkind => exact .sayEnd hp hkind
  | equals hp hequals => exact .equals hp hequals
  | terminator hp hkind =>
    rw [onto_complete]
    exact .terminator hp hkind
  | set hp hkind =>
    rw [onto_complete]
    exact .set hp hkind
  | argument hp ho =>
    rw [onto_complete]
    exact .argument hp ho

/-- A stop on top of a level is a stop; the level only shows if there is a
    program. -/
theorem Stops.onto (h : Stops limit r t result uses) :
    Stops limit (r.onto base) t (result.map (Program.onto base)) uses := by
  cases h with
  | full hsettles hfull => exact .full hsettles.onto (by simpa using hfull)
  | inputEnd hsettles hkind =>
    rw [← conclude_onto]
    exact .inputEnd hsettles.onto hkind
  | misfit hslot hfits => exact .misfit hslot hfits
  | unexpected hp hforeign hcomma => exact .unexpected hp hforeign hcomma

theorem Reads.onto (h : Reads limit r ts q) :
    Reads limit (r.onto base) ts (q.onto base) := by
  induction h with
  | nil r => exact .nil _
  | cons hmove _ ih => exact .cons hmove.onto ih

theorem Halts.onto (base : Level) {outcome : Outcome}
    (h : Halts limit lastLine r advances ts outcome) :
    Halts limit lastLine (r.onto base) advances ts
      { outcome with result := outcome.result.map (Program.onto base) } := by
  cases h with
  | used hstops => exact .used hstops.onto
  | left hstops => exact .left hstops.onto
  | ranOut hstops => exact .ranOut hstops.onto
  | inSay hmoves =>
    rw [← conclude_onto]
    exact .inSay hmoves.onto

/-- What was read before comes before what is read now, and changes nothing
    else. -/
theorem result_onto :
    (r.onto base).result limit lastLine ts =
      (r.result limit lastLine ts).map (Program.onto base) := by
  obtain ⟨used, q, left, hts, hreads, hhalts⟩ :=
    exists_halts limit lastLine r 0 ts
  have hrun := run_of_halts (hhalts.onto base)
  unfold result
  rw [hts] at hrun ⊢
  rw [run_append hreads.onto, hrun]

end Reader

/-! ## Scanning -/

/-- The rejection with other line numbers. -/
def Rejection.mapLines (h : Nat → Nat) : Rejection → Rejection
  | scan fault => scan (fault.mapLine h)
  | read fault => read (fault.mapLines h)

variable {a b : String}

theorem Text.lines_toList_append
    (ha : a = "" ∨ a.toList.getLast? = some '\n') :
    lines (a ++ b).toList = lines a.toList ++ lines b.toList := by
  rw [String.toList_append]
  apply lines_append_lines
  rcases ha with rfl | ha
  · exact .inl rfl
  · exact .inr ha

/-- Behind `a` the lines of `b`, and its end, have the numbers that `shift`
    makes of their own. -/
def Text.Shifts (a b : String) (shift : Nat → Nat) : Prop :=
  ∀ place ≤ (lines b.toList).length,
    shift (lineNumber place) = lineNumber (place + (lines a.toList).length)

theorem Text.shifts_lineNumber (a b : String) :
    Shifts a b fun n => lineNumber (n + (lines a.toList).length) :=
  fun place _ => lineNumber_lineNumber_add place _

/-- With fewer than 2^32 lines in both together, the numbers are higher by the
    number of lines of `a`. -/
theorem Text.shifts_add
    (h : (lines a.toList).length + (lines b.toList).length < UInt32.size) :
    Shifts a b (· + (lines a.toList).length) := by
  intro place hplace
  dsimp only
  rw [lineNumber_of_lt (by omega), lineNumber_of_lt (by omega)]

variable {shift : Nat → Nat}

theorem Text.placedLines_toList_append
    (ha : a = "" ∨ a.toList.getLast? = some '\n') :
    placedLines (a ++ b).toList = placedLines a.toList ++
      (placedLines b.toList).map
        (Prod.map id (· + (lines a.toList).length)) := by
  rw [placedLines, lines_toList_append ha, List.zipIdx_append, placedLines,
    placedLines, List.map_snd_add_zipIdx_eq_zipIdx, Nat.add_comm]

theorem Text.numberedLines_toList_append
    (ha : a = "" ∨ a.toList.getLast? = some '\n') (hshift : Shifts a b shift) :
    numberedLines (a ++ b).toList =
      numberedLines a.toList ++ (numberedLines b.toList).map
        (Prod.map id shift) := by
  rw [numberedLines_eq, numberedLines_eq, numberedLines_eq,
    placedLines_toList_append ha, List.map_append, List.map_map, List.map_map]
  congr 1
  refine List.map_congr_left fun l hl => ?_
  have hnumber := hshift l.2 (place_of_mem_placedLines hl).2
  rw [Function.comp_apply, Function.comp_apply, Prod.map, Prod.map, Prod.map,
    Prod.map, hnumber]

/-- The tokens of the first script, without the end of the input, come before
    those of the second one. -/
theorem Token.ofScript_append_eq
    (ha : a = "" ∨ a.toList.getLast? = some '\n')
    (hshift : Text.Shifts a b shift) :
    ofScript (a ++ b) = do
      let ts ← ofNumbered (Text.numberedLines a.toList)
      let ts' ← renumber shift (ofScript b)
      return ts ++ ts' := by
  have hend := hshift _ (Nat.le_refl _)
  rw [ofScript_eq, ofScript_eq, Text.numberedLines_toList_append ha hshift,
    Text.lines_toList_append ha, ofNumbered_append, ofNumbered_renumber]
  cases ofNumbered (Text.numberedLines a.toList) with
  | error fault => rfl
  | ok ts =>
    cases ofNumbered (Text.numberedLines b.toList) with
    | error fault => rfl
    | ok ts' =>
      simp [renumber_ok, Except.map, bind, Except.bind, pure, Except.pure,
        mapLine, endOfInput, hend, Nat.add_comm]

/-! ## Reading -/

/-- Is the fault about a token that was found where it cannot stand? -/
def ReadFault.namesToken : ReadFault → Bool
  | expected .. | unexpected .. => true
  | unclosedBlock .. | blockLimit .. => false

namespace Reader

variable {limit lastLine : Nat} {r : Reader} {last : Token}
  {body : List Token} {p : Program} {e : ReadFault}

theorem namesToken_of_conclude {line : Nat}
    (h : r.conclude limit line = .error e) : e.namesToken = false := by
  unfold conclude at h
  split at h
  · cases h
    rfl
  · split at h <;> cases h
    rfl

/-- After whole lines the reader is between statements, or it has found a
    fault in them, whatever follows. -/
theorem reads_or_fault_of_wholeLines (limit : Nat)
    (hbody : Token.WholeLines body) :
    (∃ q, Reads limit initial body q ∧ q.pending = .idle) ∨
    ∃ e, ∀ lastLine rest,
      initial.result limit lastLine (body ++ rest) = .error e := by
  rcases reads_or_stops limit initial body with ⟨q, hreads⟩ |
    ⟨used, q, t, left, result, uses, rfl, hreads, hstops⟩
  · exact .inl ⟨q, hreads, hreads.pending_of_lineEnd (fun _ => rfl)
      (fun t ht => .inl (hbody.newline t ht))⟩
  · have hfeed := feed_of_stops hstops
    cases result with
    | ok p =>
      -- only the end of the input stops a reader with a program, and the
      -- input does not end in the lines
      obtain ⟨-, -, hkind, -⟩ := feed_eq_stop_ok hfeed
      exact absurd hkind (hbody.noEnd t (by simp))
    | error e =>
      refine .inr ⟨e, fun lastLine rest => ?_⟩
      rw [List.append_assoc, result_append hreads, List.cons_append,
        result_of_stop hfeed]

/-- Whole lines that are a program bring the reader back to the start, on
    top of the program. -/
theorem reads_of_wholeLines (hbody : Token.WholeLines body)
    (hend : last.kind = .endOfInput)
    (h : initial.result limit lastLine (body ++ [last]) = .ok p) :
    ∃ base : Level, Reads limit initial body (initial.onto base) ∧
      p.statements = base.body := by
  rcases reads_or_fault_of_wholeLines limit hbody with
    ⟨q, hreads, hidle⟩ | ⟨e, hfault⟩
  · rw [result_append hreads, result_endOfInput hidle hend] at h
    obtain ⟨hblocks, rfl⟩ := conclude_eq_ok h
    rw [eq_initial_onto hidle hblocks] at hreads
    exact ⟨q.level, hreads, rfl⟩
  · rw [hfault] at h
    cases h

/-- A fault about a token of whole lines is found whatever follows them. -/
theorem result_append_of_namesToken (hbody : Token.WholeLines body)
    (hend : last.kind = .endOfInput)
    (h : initial.result limit lastLine (body ++ [last]) = .error e)
    (he : e.namesToken) (lastLine' : Nat) (rest : List Token) :
    initial.result limit lastLine' (body ++ rest) = .error e := by
  rcases reads_or_fault_of_wholeLines limit hbody with
    ⟨q, hreads, hidle⟩ | ⟨e', hfault⟩
  · -- after the lines nothing is open, so the fault would be another one
    rw [result_append hreads, result_endOfInput hidle hend] at h
    rw [namesToken_of_conclude h] at he
    cases he
  · rw [hfault] at h ⊢
    exact h

end Reader

namespace Program

variable {limit : Nat} {p : Program} {e : ReadFault}

/-- After whole lines that are a program, more tokens are read as they are
    alone, but for the statements before them. -/
theorem ofTokens_append {body ts : List Token} {last : Token}
    (hbody : Token.WholeLines body) (hend : last.kind = .endOfInput)
    (h : ofTokens limit (body ++ [last]) = .ok p) (hts : ts ≠ []) :
    ofTokens limit (body ++ ts) =
      (ofTokens limit ts).map fun q => ⟨p.statements ++ q.statements⟩ := by
  rw [Reader.ofTokens_eq_result] at h
  obtain ⟨base, hreads, hp⟩ := Reader.reads_of_wholeLines hbody hend h
  rw [Reader.ofTokens_eq_result, Token.lastLine_append body hts,
    Reader.result_append hreads, Reader.result_onto,
    ← Reader.ofTokens_eq_result, hp]
  rfl

/-- After a script that is a program, another script is read as it is alone,
    but for the statements before it and the numbers of its lines. -/
theorem ofScript_append_of_ok
    (ha : a = "" ∨ a.toList.getLast? = some '\n')
    (hshift : Text.Shifts a b shift) (h : ofScript limit a = .ok p) :
    ofScript limit (a ++ b) =
      ((ofScript limit b).mapError (Rejection.mapLines shift)).map
        fun q => ⟨p.statements ++ q.statements⟩ := by
  obtain ⟨ts, hts, hread⟩ := ofScript_eq_ok h
  obtain ⟨body, hscan, hbody, rfl⟩ := Token.exists_wholeLines_of_ofScript hts
  have happend := Token.ofScript_append_eq ha hshift
  rw [hscan] at happend
  cases hb : Token.ofScript b with
  | error fault =>
    rw [hb] at happend
    rw [ofScript, happend, ofScript, hb]
    rfl
  | ok ts' =>
    rw [hb] at happend
    have hsome : ts' ≠ [] := by
      obtain ⟨_, -, -, rfl⟩ := Token.exists_wholeLines_of_ofScript hb
      simp
    rw [ofScript_of_tokens happend, ofScript_of_tokens hb,
      ofTokens_append hbody rfl hread (by simpa using hsome),
      ofTokens_mapLine]
    cases ofTokens limit ts' <;> rfl

theorem ofScript_append_of_namesToken
    (ha : a = "" ∨ a.toList.getLast? = some '\n')
    (h : ofScript limit a = .error (.read e)) (he : e.namesToken)
    {ts' : List Token} (hb : Token.ofScript b = .ok ts') :
    ofScript limit (a ++ b) = .error (.read e) := by
  obtain ⟨ts, hts, hread⟩ := ofScript_eq_read h
  obtain ⟨body, hscan, hbody, rfl⟩ := Token.exists_wholeLines_of_ofScript hts
  have happend := Token.ofScript_append_eq ha (Text.shifts_lineNumber a b)
  rw [hscan, hb] at happend
  rw [Reader.ofTokens_eq_result] at hread
  rw [ofScript_of_tokens happend, Reader.ofTokens_eq_result,
    Reader.result_append_of_namesToken hbody rfl hread he]
  rfl

end Program

theorem Token.exists_ofScript_append_iff
    (ha : a = "" ∨ a.toList.getLast? = some '\n') :
    (∃ ts, ofScript (a ++ b) = .ok ts) ↔
      (∃ ts, ofScript a = .ok ts) ∧ ∃ ts, ofScript b = .ok ts := by
  rw [ofScript_append_eq ha (Text.shifts_lineNumber a b), ofScript_eq a]
  cases ofNumbered (Text.numberedLines a.toList) with
  | error fault =>
    constructor
    · rintro ⟨ts, hts⟩
      cases hts
    · rintro ⟨⟨ts, hts⟩, -⟩
      cases hts
  | ok ts =>
    cases ofScript b with
    | error fault =>
      constructor
      · rintro ⟨ts, hts⟩
        cases hts
      · rintro ⟨-, ts, hts⟩
        cases hts
    | ok ts' => exact ⟨fun _ => ⟨⟨_, rfl⟩, _, rfl⟩, fun _ => ⟨_, rfl⟩⟩

/-- What `a` and `b` have to do with the script made of both, `a` first. -/
structure Program.Appends (limit : Nat) (a b : String) : Prop where
  /-- The script has tokens if both have. -/
  tokens : (∃ ts, Token.ofScript (a ++ b) = .ok ts) ↔
    (∃ ts, Token.ofScript a = .ok ts) ∧ ∃ ts, Token.ofScript b = .ok ts
  /-- Two programs become one. -/
  program : ∀ p q, ofScript limit a = .ok p → ofScript limit b = .ok q →
    ofScript limit (a ++ b) = .ok ⟨p.statements ++ q.statements⟩
  /-- The fault of `b` is found on lines that are higher by the number of
      lines of `a`. -/
  laterFault : ∀ p e, ofScript limit a = .ok p → ofScript limit b = .error e →
    ofScript limit (a ++ b) =
      .error (e.mapLines (· + (Text.lines a.toList).length))
  /-- A fault about a token of `a` stays. -/
  earlierFault : ∀ e ts, ofScript limit a = .error (.read e) → e.namesToken →
    Token.ofScript b = .ok ts → ofScript limit (a ++ b) = .error (.read e)
  /-- The definitions at top level, and those of the source file, are first
      those of `a` and then those of `b`. -/
  definitions : ∀ p q, ofScript limit a = .ok p → ofScript limit b = .ok q →
    ∃ both, ofScript limit (a ++ b) = .ok both ∧
      both.functions = p.functions ++ q.functions ∧
      both.starts = p.starts ++ q.starts ∧
      both.lower.functions = p.lower.functions ++ q.lower.functions ∧
      both.lower.entryPoints = p.lower.entryPoints ++ q.lower.entryPoints

/-- **Scripts can be put one after the other.**  Let `a` be made of whole
    lines, and let `a` and `b` have fewer than 2^32 lines together.  Then
    `a ++ b` has tokens if both have.  If `a` is a program, then `a ++ b` is
    the program of both, or has the fault of `b` on lines that are higher by
    the number of lines of `a`.  If `a` has a fault about a token, `a ++ b`
    has the same fault.  The functions and the start blocks are those of `a`
    and then those of `b`, and so are the definitions of the source file. -/
theorem Program.ofScript_append (limit : Nat) (a b : String)
    (ha : a = "" ∨ a.toList.getLast? = some '\n')
    (hlines : (Text.lines a.toList).length + (Text.lines b.toList).length <
      UInt32.size) :
    Appends limit a b := by
  have hok : ∀ p q, ofScript limit a = .ok p → ofScript limit b = .ok q →
      ofScript limit (a ++ b) = .ok ⟨p.statements ++ q.statements⟩ := by
    intro p q hp hq
    rw [ofScript_append_of_ok ha (Text.shifts_add hlines) hp, hq]
    rfl
  constructor
  case tokens => exact Token.exists_ofScript_append_iff ha
  case program => exact hok
  case laterFault =>
    intro p e hp he
    rw [ofScript_append_of_ok ha (Text.shifts_add hlines) hp, he]
    rfl
  case earlierFault =>
    intro e ts he hnames hts
    exact ofScript_append_of_namesToken ha he hnames hts
  case definitions =>
    intro p q hp hq
    refine ⟨_, hok p q hp hq, List.filter_append .., List.filter_append ..,
      ?_, ?_⟩
    · simp only [functions_lower, List.filterMap_append]
    · simp only [entryPoints_lower, List.filterMap_append]

/-- A script with a comment and a carriage return, before one that is a
    program and before one that leaves a block open; and a script with a
    fault before it. -/
theorem Program.ofScript_append_blocks :
    let a := "set x\r\n# note\n"
    let b := "function f:\nend"
    let unclosed := "\n  start:\n"
    let faulty := "start:\n set \"x\"\n"
    ofScript 5 (a ++ b) = .ok ⟨[.set "x", .function "f" none []]⟩ ∧
    ofScript 5 (a ++ unclosed) = .error (.read (.unclosedBlock 4 4)) ∧
    ofScript 5 (a ++ "\"") = .error (.scan ⟨3⟩) ∧
    ofScript 5 (faulty ++ unclosed) =
      .error (.read (.expected .variableName "\"x\"" 2)) := by
  intro a b unclosed faulty
  have ha : a = "" ∨ a.toList.getLast? = some '\n' := .inr (by decide +kernel)
  have hfaulty : faulty = "" ∨ faulty.toList.getLast? = some '\n' :=
    .inr (by decide +kernel)
  have hp : ofScript 5 a = .ok ⟨[.set "x"]⟩ := by
    have htokens : Token.ofScript a = .ok [⟨.keyword .set, "set", 1⟩,
      ⟨.identifier, "x", 1⟩, ⟨.newline, "\n", 1⟩, ⟨.endOfInput, "", 2⟩] := by
      decide +kernel
    rw [ofScript_of_tokens htokens]
    rfl
  have hq : ofScript 5 b = .ok ⟨[.function "f" none []]⟩ := by
    have htokens : Token.ofScript b = .ok [⟨.keyword .function, "function", 1⟩,
      ⟨.identifier, "f", 1⟩, ⟨.symbol, ":", 1⟩, ⟨.newline, "\n", 1⟩,
      ⟨.keyword .close, "end", 2⟩, ⟨.newline, "\n", 2⟩,
      ⟨.endOfInput, "", 2⟩] := by decide +kernel
    rw [ofScript_of_tokens htokens]
    rfl
  have hunclosed : ofScript 5 unclosed = .error (.read (.unclosedBlock 2 2)) :=
    ofScript_of_compile_error (by decide +kernel)
  have hscan : ofScript 5 "\"" = .error (.scan ⟨1⟩) :=
    ofScript_of_compile_error (by decide +kernel)
  have hfault : ofScript 5 faulty =
      .error (.read (.expected .variableName "\"x\"" 2)) :=
    ofScript_of_compile_error (by decide +kernel)
  have htokens : Token.ofScript unclosed = .ok
      [⟨.keyword .start, "start", 2⟩, ⟨.symbol, ":", 2⟩, ⟨.newline, "\n", 2⟩,
       ⟨.endOfInput, "", 2⟩] := by decide +kernel
  have hlines : (Text.lines a.toList).length = 2 := by decide +kernel
  have hunclosedAfter :=
    (ofScript_append 5 a unclosed ha (by decide +kernel)).laterFault _ _ hp hunclosed
  have hscanAfter :=
    (ofScript_append 5 a "\"" ha (by decide +kernel)).laterFault _ _ hp hscan
  rw [hlines] at hunclosedAfter hscanAfter
  exact ⟨(ofScript_append 5 a b ha (by decide +kernel)).program _ _ hp hq,
    hunclosedAfter, hscanAfter,
    (ofScript_append 5 faulty unclosed hfaulty (by decide +kernel)).earlierFault _ _
      hfault rfl htokens⟩

end SayScript
