import SayScript.Proofs.Nodes
import SayScript.Proofs.Numbering
import SayScript.Proofs.Runs

/-! # What reading does not depend on

    A reader decides by the kinds of the tokens and by the texts of symbols.
    Names, quoted texts and line numbers it only passes on, to the program
    or to the fault.  So reading commutes with any change of these:
    `read_relabels`.  It is proved move by move and stop by stop.

    A fault holds the description of the token that it is about, and not the
    token itself, so that faults are related rather than mapped.

    Of most use are changes of line numbers alone.  Under these the program
    stays what it is, and the fault has the new numbers,
    `ofTokens_mapLine`. -/

namespace SayScript

/-- Other names, quoted texts and line numbers.  The default terminator can
    be written or left out, and has to stay what it is. -/
structure Relabelling where
  name : String → String
  text : String → String
  line : Nat → Nat
  text_default : text Statement.defaultTerminator = Statement.defaultTerminator

/-! ## Relabelled tokens and programs -/

/-- The token with other labels.  Symbols and keywords keep their text. -/
def Token.relabel (ρ : Relabelling) (t : Token) : Token where
  kind := t.kind
  text := match t.kind with
    | .identifier => ρ.name t.text
    | .literal => ρ.text t.text
    | _ => t.text
  line := ρ.line t.line

def Operand.relabel (ρ : Relabelling) : Operand → Operand
  | literal text => literal (ρ.text text)
  | var name => var (ρ.name name)

namespace Statement

mutual

def relabel (ρ : Relabelling) : Statement → Statement
  | say fragments terminator =>
    say (fragments.map (Operand.relabel ρ)) (ρ.text terminator)
  | set name => set (ρ.name name)
  | call callee argument =>
    call (ρ.name callee) (argument.map (Operand.relabel ρ))
  | function name parameter body =>
    function (ρ.name name) (parameter.map ρ.name) (relabelAll ρ body)
  | start body => start (relabelAll ρ body)

def relabelAll (ρ : Relabelling) : List Statement → List Statement
  | [] => []
  | s :: rest => s.relabel ρ :: relabelAll ρ rest

end

theorem relabelAll_eq (ρ : Relabelling) (ss : List Statement) :
    relabelAll ρ ss = ss.map (relabel ρ) := by
  induction ss with
  | nil => rfl
  | cons s ss ih => rw [relabelAll, ih, List.map_cons]

end Statement

def Program.relabel (ρ : Relabelling) (p : Program) : Program :=
  { statements := p.statements.map (Statement.relabel ρ) }

variable {ρ : Relabelling} {t : Token}

namespace Token

@[simp] theorem relabel_kind : (t.relabel ρ).kind = t.kind := rfl

@[simp] theorem relabel_line : (t.relabel ρ).line = ρ.line t.line := rfl

theorem relabel_text_of_identifier (h : t.kind = .identifier) :
    (t.relabel ρ).text = ρ.name t.text := by
  simp [relabel, h]

theorem relabel_text_of_literal (h : t.kind = .literal) :
    (t.relabel ρ).text = ρ.text t.text := by
  simp [relabel, h]

@[simp] theorem isSymbol_relabel (c : Char) :
    (t.relabel ρ).isSymbol c = t.isSymbol c := by
  by_cases h : t.kind = .symbol
  · simp [isSymbol, relabel, h]
  · simp [isSymbol, h]

@[simp] theorem isStray_relabel : (t.relabel ρ).isStray = t.isStray := rfl

@[simp] theorem isForeign_relabel : (t.relabel ρ).isForeign = t.isForeign :=
  rfl

end Token

@[simp] theorem Slot.fits_relabel (slot : Slot) :
    slot.fits (t.relabel ρ) = slot.fits t := by
  cases slot <;> simp only [fits, Token.isSymbol_relabel] <;> rfl

@[simp] theorem Reader.operand?_relabel :
    operand? (t.relabel ρ) = (operand? t).map (Operand.relabel ρ) := by
  unfold operand?
  rw [Token.relabel_kind]
  split
  · rename_i hkind
    simp [Token.relabel_text_of_literal hkind, Operand.relabel]
  · rename_i hkind
    simp [Token.relabel_text_of_identifier hkind, Operand.relabel]
  · rfl

/-! ## Relabelled readers -/

def Header.relabel (ρ : Relabelling) : Header → Header
  | function name parameter => function (ρ.name name) (parameter.map ρ.name)
  | start => start

theorem Header.relabel_block (h : Header) (body : List Statement) :
    (h.block body).relabel ρ =
      (h.relabel ρ).block (body.map (Statement.relabel ρ)) := by
  rw [← Statement.relabelAll_eq]
  cases h <;> rfl

def Level.relabel (ρ : Relabelling) (l : Level) : Level :=
  { statements := l.statements.map (Statement.relabel ρ), items := l.items }

@[simp] theorem Level.body_relabel (l : Level) :
    (l.relabel ρ).body = l.body.map (Statement.relabel ρ) := by
  simp [body, relabel]

def OpenBlock.relabel (ρ : Relabelling) (b : OpenBlock) : OpenBlock where
  header := b.header.relabel ρ
  openedAt := ρ.line b.openedAt
  outer := b.outer.relabel ρ

def Pending.relabel (ρ : Relabelling) : Pending → Pending
  | idle => idle
  | function line => function (ρ.line line)
  | functionName line name => functionName (ρ.line line) (ρ.name name)
  | functionParameter line name parameter =>
    functionParameter (ρ.line line) (ρ.name name) (ρ.name parameter)
  | start line => start (ρ.line line)
  | say fragments after => say (fragments.map (Operand.relabel ρ)) after
  | sayEnd fragments => sayEnd (fragments.map (Operand.relabel ρ))
  | sayEquals fragments => sayEquals (fragments.map (Operand.relabel ρ))
  | set => set
  | call callee => call (ρ.name callee)

theorem Pending.slot?_relabel (p : Pending) :
    (p.relabel ρ).slot? = p.slot? := by
  cases p <;> rfl

namespace Reader

def relabel (ρ : Relabelling) (r : Reader) : Reader where
  pending := r.pending.relabel ρ
  level := r.level.relabel ρ
  blocks := r.blocks.map (OpenBlock.relabel ρ)

variable {limit lastLine advances : Nat} {r q : Reader} {ts : List Token}
  {result : Except ReadFault Program} {uses : Bool}

theorem relabel_await (p : Pending) :
    (r.await p).relabel ρ = (r.relabel ρ).await (p.relabel ρ) := rfl

theorem relabel_complete (s : Statement) :
    (r.complete s).relabel ρ = (r.relabel ρ).complete (s.relabel ρ) := rfl

theorem relabel_enter (header : Header) (line : Nat) :
    (r.enter header line).relabel ρ =
      (r.relabel ρ).enter (header.relabel ρ) (ρ.line line) := rfl

theorem relabel_leave : r.leave.relabel ρ = (r.relabel ρ).leave := by
  unfold leave
  cases hblocks : r.blocks with
  | nil => simp [relabel, hblocks, skip, Level.skip, Level.relabel]
  | cons b outer =>
    simp only [relabel, hblocks, List.map_cons, Level.body_relabel,
      OpenBlock.relabel, ← Header.relabel_block]
    rfl

@[simp] theorem isOverfull_relabel :
    (r.relabel ρ).isOverfull limit = r.isOverfull limit := by
  simp only [isOverfull, relabel, List.isEmpty_map]
  rfl

theorem Settles.relabel (h : Settles r t q) :
    Settles (r.relabel ρ) (t.relabel ρ) (q.relabel ρ) := by
  cases h with
  | idle hp => exact .idle (by simp [Reader.relabel, hp, Pending.relabel])
  | @call callee hp hno =>
    have hp' : (r.relabel ρ).pending = .call (ρ.name callee) := by
      simp [Reader.relabel, hp, Pending.relabel]
    rw [relabel_complete]
    exact .call hp' (by simp [hno])

theorem Begins.relabel (h : Begins r t q) :
    Begins (r.relabel ρ) (t.relabel ρ) (q.relabel ρ) := by
  cases h with
  | newline hkind => exact .newline hkind
  | call hkind =>
    rw [relabel_await, Pending.relabel,
      ← Token.relabel_text_of_identifier hkind]
    exact .call hkind
  | function hkind => exact .function hkind
  | start hkind => exact .start hkind
  | say hkind => exact .say hkind
  | set hkind => exact .set hkind
  | close hkind =>
    rw [relabel_leave]
    exact .close hkind
  | stray hstray => exact .stray (by simpa using hstray)

/-- A move under other labels is a move. -/
theorem Moves.relabel (h : Moves limit r t q) :
    Moves limit (r.relabel ρ) (t.relabel ρ) (q.relabel ρ) := by
  have hpending : ∀ p, r.pending = p →
      (r.relabel ρ).pending = p.relabel ρ := by
    intro p hp
    rw [← hp]
    rfl
  cases h with
  | begins hsettles hroom hbegins =>
    exact .begins hsettles.relabel (by simpa using hroom) hbegins.relabel
  | functionName hp hkind =>
    rw [relabel_await, Pending.relabel,
      ← Token.relabel_text_of_identifier hkind]
    exact .functionName (hpending _ hp) hkind
  | parameter hp hkind =>
    rw [relabel_await, Pending.relabel,
      ← Token.relabel_text_of_identifier hkind]
    exact .parameter (hpending _ hp) hkind
  | colon hp hcolon =>
    rw [relabel_enter]
    refine .colon ?_ (by simpa using hcolon)
    rw [hpending _ rfl]
    unfold Pending.header? at hp
    split at hp <;> cases hp <;> simp [Pending.relabel, *] <;> rfl
  | fragment hp ho =>
    exact .fragment (hpending _ hp) (by simp [ho])
  | comma hp hcomma =>
    exact .comma (hpending _ hp) (by simpa using hcomma)
  | @lineEnd fragments _ hp hkind =>
    rw [relabel_complete, Statement.relabel, ρ.text_default, List.map_reverse]
    exact .lineEnd (hpending _ hp) hkind
  | sayEnd hp hkind => exact .sayEnd (hpending _ hp) hkind
  | equals hp hequals =>
    exact .equals (hpending _ hp) (by simpa using hequals)
  | terminator hp hkind =>
    rw [relabel_complete, Statement.relabel, List.map_reverse,
      ← Token.relabel_text_of_literal hkind]
    exact .terminator (hpending _ hp) hkind
  | set hp hkind =>
    rw [relabel_complete, Statement.relabel,
      ← Token.relabel_text_of_identifier hkind]
    exact .set (hpending _ hp) hkind
  | argument hp ho =>
    exact .argument (hpending _ hp) (by simp [ho])

end Reader

/-! ## Relabelled results -/

/-- The second fault is the first one under other labels, with the
    description of the token as it is now. -/
inductive ReadFault.Relabels (ρ : Relabelling) :
    ReadFault → ReadFault → Prop where
  | expected (slot : Slot) (t : Token) :
      Relabels ρ (.expected slot t.describe t.line)
        (.expected slot (t.relabel ρ).describe (ρ.line t.line))
  | unexpected (t : Token) :
      Relabels ρ (.unexpected t.describe t.line)
        (.unexpected (t.relabel ρ).describe (ρ.line t.line))
  | unclosedBlock (openedAt line : Nat) :
      Relabels ρ (.unclosedBlock openedAt line)
        (.unclosedBlock (ρ.line openedAt) (ρ.line line))
  | blockLimit (limit line : Nat) :
      Relabels ρ (.blockLimit limit line) (.blockLimit limit (ρ.line line))

namespace Reader

/-- The second result is the first one under other labels. -/
inductive ResultRelabels (ρ : Relabelling) :
    Except ReadFault Program → Except ReadFault Program → Prop where
  | ok (p : Program) : ResultRelabels ρ (.ok p) (.ok (p.relabel ρ))
  | error {e e' : ReadFault} : e.Relabels ρ e' →
      ResultRelabels ρ (.error e) (.error e')

/-- The second outcome is the first one under other labels; as many tokens
    were taken. -/
structure Outcome.Relabels (ρ : Relabelling) (outcome outcome' : Outcome) :
    Prop where
  result : ResultRelabels ρ outcome.result outcome'.result
  rest : outcome'.rest = outcome.rest.map (Token.relabel ρ)
  advances : outcome'.advances = outcome.advances

variable {limit lastLine advances : Nat} {r q : Reader} {ts : List Token}
  {result : Except ReadFault Program} {uses : Bool}

theorem ResultRelabels.of_ok {result' : Except ReadFault Program}
    {p : Program} (h : ResultRelabels ρ result result')
    (hresult : result = .ok p) : result' = .ok (p.relabel ρ) := by
  cases h with
  | ok q =>
    cases hresult
    rfl
  | error _ => cases hresult

theorem ResultRelabels.of_error {result' : Except ReadFault Program}
    {e : ReadFault} (h : ResultRelabels ρ result result') (hresult : result = .error e) :
    ∃ e', result' = .error e' ∧ e.Relabels ρ e' := by
  cases h with
  | ok q => cases hresult
  | error he =>
    cases hresult
    exact ⟨_, rfl, he⟩

theorem conclude_relabel (r : Reader) (limit line : Nat) :
    ResultRelabels ρ (r.conclude limit line)
      ((r.relabel ρ).conclude limit (ρ.line line)) := by
  unfold conclude
  rw [isOverfull_relabel]
  split
  · exact .error (.blockLimit limit line)
  · cases hblocks : r.blocks with
    | nil =>
      simp only [relabel, hblocks, List.map_nil, Level.body_relabel]
      exact .ok _
    | cons b outer =>
      simp only [relabel, hblocks, List.map_cons]
      exact .error (.unclosedBlock b.openedAt line)

/-- A stop under other labels is a stop. -/
theorem Stops.relabel (ρ : Relabelling) (h : Stops limit r t result uses) :
    ∃ result', Stops limit (r.relabel ρ) (t.relabel ρ) result' uses ∧
      ResultRelabels ρ result result' := by
  cases h with
  | full hsettles hfull =>
    exact ⟨_, .full hsettles.relabel (by simpa using hfull),
      .error (.blockLimit limit t.line)⟩
  | inputEnd hsettles hkind =>
    exact ⟨_, .inputEnd hsettles.relabel hkind, conclude_relabel _ _ _⟩
  | misfit hslot hfits =>
    refine ⟨_, .misfit ?_ (by simpa using hfits), .error (.expected _ t)⟩
    exact (Pending.slot?_relabel _).trans hslot
  | @unexpected fragments after hp hforeign hcomma =>
    have hp' : (r.relabel ρ).pending =
        .say (fragments.map (Operand.relabel ρ)) after := by
      simp [Reader.relabel, hp, Pending.relabel]
    exact ⟨_, .unexpected hp' hforeign (by simpa using hcomma),
      .error (.unexpected t)⟩

theorem Reads.relabel (h : Reads limit r ts q) :
    Reads limit (r.relabel ρ) (ts.map (Token.relabel ρ)) (q.relabel ρ) := by
  induction h with
  | nil r => exact .nil _
  | cons hmove _ ih => exact .cons hmove.relabel ih

theorem Halts.relabel (ρ : Relabelling) {outcome : Outcome}
    (h : Halts limit lastLine r advances ts outcome) :
    ∃ outcome', Halts limit (ρ.line lastLine) (r.relabel ρ) advances
        (ts.map (Token.relabel ρ)) outcome' ∧
      outcome.Relabels ρ outcome' := by
  cases h with
  | used hstops =>
    obtain ⟨result', hstops', hresult⟩ := hstops.relabel ρ
    exact ⟨_, .used hstops', hresult, rfl, rfl⟩
  | left hstops =>
    obtain ⟨result', hstops', hresult⟩ := hstops.relabel ρ
    exact ⟨_, .left hstops', hresult, rfl, rfl⟩
  | ranOut hstops =>
    obtain ⟨result', hstops', hresult⟩ := hstops.relabel ρ
    exact ⟨_, .ranOut hstops', hresult, rfl, rfl⟩
  | @inSay q hmoves =>
    have hmoves' : Moves limit (r.relabel ρ)
        ((Token.endOfInput lastLine).relabel ρ) (q.relabel ρ) :=
      hmoves.relabel
    exact ⟨_, .inSay hmoves', conclude_relabel _ _ _, rfl, rfl⟩

/-- A run under other labels is the same run. -/
theorem run_relabels (ρ : Relabelling) (limit lastLine advances : Nat)
    (r : Reader) (ts : List Token) :
    (r.run limit lastLine advances ts).Relabels ρ
      ((r.relabel ρ).run limit (ρ.line lastLine) advances
        (ts.map (Token.relabel ρ))) := by
  obtain ⟨used, q, left, hts, hreads, hhalts⟩ :=
    exists_halts limit lastLine r advances ts
  obtain ⟨outcome', hhalts', hrelabels⟩ := hhalts.relabel ρ
  have hrun : (r.relabel ρ).run limit (ρ.line lastLine) advances
      (ts.map (Token.relabel ρ)) = outcome' := by
    rw [hts, List.map_append, run_append hreads.relabel, List.length_map]
    exact run_of_halts hhalts'
  rw [hrun]
  exact hrelabels

end Reader

/-- Reading commutes with relabelling. -/
theorem Program.read_relabels (ρ : Relabelling) (limit : Nat)
    (ts : List Token) :
    (read limit ts).Relabels ρ (read limit (ts.map (Token.relabel ρ))) := by
  by_cases hts : ts = []
  · -- without any token the line that they end on is never used
    rw [hts]
    exact ⟨.ok _, rfl, rfl⟩
  · have hline := Token.lastLine_map (f := Token.relabel ρ) (h := ρ.line)
      (fun _ => rfl) hts
    have hrun := Reader.run_relabels ρ limit (Token.lastLine ts) 0 .initial ts
    rw [← hline] at hrun
    exact hrun

/-! ## Line numbers alone -/

/-- Other line numbers, and nothing else. -/
def Relabelling.ofLine (h : Nat → Nat) : Relabelling where
  name := id
  text := id
  line := h
  text_default := rfl

theorem Token.relabel_ofLine (h : Nat → Nat) :
    Token.relabel (.ofLine h) = Token.mapLine h := by
  funext t
  obtain ⟨kind, text, line⟩ := t
  cases kind <;> rfl

theorem Operand.relabel_ofLine (h : Nat → Nat) :
    Operand.relabel (.ofLine h) = id := by
  funext o
  cases o <;> rfl

namespace Statement

mutual

theorem relabel_ofLine (h : Nat → Nat) :
    ∀ s : Statement, s.relabel (.ofLine h) = s
  | say _ _ => by simp [relabel, Operand.relabel_ofLine]; rfl
  | set _ => rfl
  | call _ _ => by simp [relabel, Operand.relabel_ofLine]; rfl
  | function _ parameter body => by
    rw [relabel, relabelAll_ofLine h body]
    cases parameter <;> rfl
  | start body => by rw [relabel, relabelAll_ofLine h body]

theorem relabelAll_ofLine (h : Nat → Nat) :
    ∀ ss : List Statement, relabelAll (.ofLine h) ss = ss
  | [] => rfl
  | s :: rest => by
    rw [relabelAll, relabel_ofLine h s, relabelAll_ofLine h rest]

end

end Statement

theorem Program.relabel_ofLine (h : Nat → Nat) (p : Program) :
    p.relabel (.ofLine h) = p := by
  rw [relabel, ← Statement.relabelAll_eq, Statement.relabelAll_ofLine]

namespace ReadFault

/-- The fault with other line numbers. -/
def mapLines (h : Nat → Nat) : ReadFault → ReadFault
  | expected slot found line => expected slot found (h line)
  | unexpected found line => unexpected found (h line)
  | unclosedBlock openedAt line => unclosedBlock (h openedAt) (h line)
  | blockLimit limit line => blockLimit limit (h line)

/-- All line numbers in the fault. -/
def lines : ReadFault → List Nat
  | expected _ _ line => [line]
  | unexpected _ line => [line]
  | unclosedBlock openedAt line => [openedAt, line]
  | blockLimit _ line => [line]

theorem lines_mapLines (h : Nat → Nat) (e : ReadFault) :
    (e.mapLines h).lines = e.lines.map h := by
  cases e <;> rfl

theorem Relabels.eq_mapLines {h : Nat → Nat} {e e' : ReadFault}
    (he : e.Relabels (.ofLine h) e') : e' = e.mapLines h := by
  -- a description does not tell the line
  have hdescribe : ∀ t : Token,
      (t.relabel (.ofLine h)).describe = t.describe := by
    intro t
    rw [Token.relabel_ofLine]
    rfl
  cases he with
  | expected slot t =>
    rw [hdescribe]
    rfl
  | unexpected t =>
    rw [hdescribe]
    rfl
  | unclosedBlock openedAt line => rfl
  | blockLimit limit line => rfl

end ReadFault

/-- Under other line numbers the same program is read, or the same fault is
    found with other line numbers. -/
theorem Program.ofTokens_mapLine (h : Nat → Nat) (limit : Nat)
    (ts : List Token) :
    ofTokens limit (ts.map (Token.mapLine h)) =
      (ofTokens limit ts).mapError (ReadFault.mapLines h) := by
  have hresult := (read_relabels (.ofLine h) limit ts).result
  rw [Token.relabel_ofLine] at hresult
  unfold ofTokens
  generalize (read limit (ts.map (Token.mapLine h))).result = result'
    at hresult ⊢
  generalize (read limit ts).result = result at hresult ⊢
  cases hresult with
  | ok p => rw [relabel_ofLine]; rfl
  | error he => rw [he.eq_mapLines]; rfl

/-- The lines in a fault are lines of tokens.  This needs no look at how the
    fault came about: all other line numbers can be changed without changing
    the tokens, so they cannot be in the fault. -/
theorem Program.exists_token_of_mem_lines {limit : Nat} {ts : List Token}
    {e : ReadFault} (h : ofTokens limit ts = .error e) :
    ∀ line ∈ e.lines, ∃ t ∈ ts, t.line = line := by
  obtain ⟨first, rest, hts⟩ : ∃ first rest, ts = first :: rest := by
    cases ts with
    | nil => cases h
    | cons first rest => exact ⟨first, rest, rfl⟩
  -- the change of line numbers: keep those of tokens, else take the first
  let keep : Nat → Nat := fun line =>
    if ∃ t ∈ ts, t.line = line then line else first.line
  have hsame : ts.map (Token.mapLine keep) = ts := by
    have hkeep : ∀ t ∈ ts, Token.mapLine keep t = t := by
      intro t ht
      have : keep t.line = t.line := if_pos ⟨t, ht, rfl⟩
      rw [Token.mapLine, this]
    rw [List.map_congr_left hkeep, List.map_id']
  have hfault : e.mapLines keep = e := by
    have := ofTokens_mapLine keep limit ts
    rw [hsame, h] at this
    exact (Except.error.inj this).symm
  intro line hline
  rw [← hfault, ReadFault.lines_mapLines] at hline
  obtain ⟨line', -, rfl⟩ := List.mem_map.mp hline
  by_cases hmem : ∃ t ∈ ts, t.line = line'
  · rw [show keep line' = line' from if_pos hmem]
    exact hmem
  · rw [show keep line' = first.line from if_neg hmem]
    exact ⟨first, by simp [hts], rfl⟩

/-! ## Quoted texts alone -/

namespace Statement

mutual

theorem nodes_relabel : ∀ s : Statement,
    (s.relabel ρ).nodes = s.nodes.map (relabel ρ)
  | say _ _ => rfl
  | set _ => rfl
  | call _ _ => rfl
  | function _ _ body => by
    simp only [relabel, nodes, List.map_cons, nodesOf_relabelAll body]
  | start body => by
    simp only [relabel, nodes, List.map_cons, nodesOf_relabelAll body]

theorem nodesOf_relabelAll : ∀ ss : List Statement,
    nodesOf (relabelAll ρ ss) = (nodesOf ss).map (relabel ρ)
  | [] => rfl
  | s :: rest => by
    rw [relabelAll, nodesOf_cons, nodesOf_cons, List.map_append,
      nodes_relabel s, nodesOf_relabelAll rest]

end

theorem ownTexts_relabel (s : Statement) :
    (s.relabel ρ).ownTexts = s.ownTexts.map ρ.text := by
  have hliterals : ∀ os : List Operand,
      (os.map (Operand.relabel ρ)).filterMap Operand.literal? =
        (os.filterMap Operand.literal?).map ρ.text := by
    intro os
    rw [List.filterMap_map, List.map_filterMap]
    congr 1
    funext o
    cases o <;> rfl
  cases s with
  | say fragments terminator => simp [relabel, ownTexts, hliterals]
  | call callee argument =>
    simp [relabel, ownTexts, ← hliterals, Option.toList_map]
  | set name => rfl
  | function name parameter body => rfl
  | start body => rfl

end Statement

theorem Program.texts_relabel (p : Program) :
    (p.relabel ρ).texts = p.texts.map ρ.text := by
  rw [texts, texts, nodes, nodes, relabel, ← Statement.relabelAll_eq,
    Statement.nodesOf_relabelAll, List.flatMap_map, List.map_flatMap]
  exact congrArg (List.flatMap · _) (funext Statement.ownTexts_relabel)

/-- The texts of a program are those of literals, apart from the terminator
    of a `say` that names none.  As with lines, all other texts could be
    changed without changing the tokens. -/
theorem Program.exists_token_of_mem_texts {limit : Nat} {ts : List Token}
    {p : Program} (h : ofTokens limit ts = .ok p) :
    ∀ text ∈ p.texts, text = Statement.defaultTerminator ∨
      ∃ t ∈ ts, t.kind = .literal ∧ t.text = text := by
  let keep : String → String := fun text =>
    if ∃ t ∈ ts, t.kind = .literal ∧ t.text = text then text
    else Statement.defaultTerminator
  have hdefault : keep Statement.defaultTerminator =
      Statement.defaultTerminator := ite_self _
  let σ : Relabelling :=
    { name := id, text := keep, line := id, text_default := hdefault }
  have hsame : ts.map (Token.relabel σ) = ts := by
    have hkeep : ∀ t ∈ ts, Token.relabel σ t = t := by
      intro t ht
      obtain ⟨kind, text, line⟩ := t
      cases kind with
      | literal =>
        have htext : keep text = text := if_pos ⟨_, ht, rfl, rfl⟩
        simp only [Token.relabel, σ, htext, id]
      | _ => rfl
    rw [List.map_congr_left hkeep, List.map_id']
  have hp : p.relabel σ = p := by
    have hresult := (read_relabels σ limit ts).result.of_ok h
    rw [hsame] at hresult
    exact Except.ok.inj (hresult.symm.trans h)
  intro text htext
  rw [← hp, texts_relabel] at htext
  obtain ⟨text', -, rfl⟩ := List.mem_map.mp htext
  by_cases hmem : ∃ t ∈ ts, t.kind = .literal ∧ t.text = text'
  · right
    rw [show σ.text text' = text' from if_pos hmem]
    exact hmem
  · exact .inl (if_neg hmem)

end SayScript
