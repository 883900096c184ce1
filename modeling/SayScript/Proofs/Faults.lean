import Mathlib.Data.List.Chain
import SayScript.Proofs.LongScripts
import SayScript.Proofs.Numbering
import SayScript.Proofs.Positions

/-! # Faults tell the truth

    What a fault of reading says is what is there.  A token that does not fit
    its place is the last one taken, and an unexpected one is the first one
    left; both interrupt a statement that is begun.  A block is reported as
    not closed at the end of the input, and it is the innermost one that is
    open there.

    In the tokens of a script each line ends with a token of its own, which
    no statement runs past: a `say` ends there, and nothing else can go on
    with it.  So the token that interrupts a statement stands on the same
    line as all tokens before it, and is never the end of the input. -/

namespace SayScript

/-- The first of the tokens `left` that `ts` ends with; when there is none, an
    end-of-input token on the last line. -/
def Token.next (ts left : List Token) : Token :=
  left.head?.getD (.endOfInput (lastLine ts))

/-- The tokens that were taken, the extra one behind the last included. -/
def Reader.Outcome.taken (o : Outcome) (ts : List Token) : List Token :=
  (ts ++ [Token.endOfInput (Token.lastLine ts)]).take o.advances

namespace Reader

open Grammar

variable {limit : Nat} {ts used left begun : List Token} {r : Reader}
  {o : Outcome} {e : ReadFault} {p : Pending} {t : Token}

/-! ## Where a run fails -/

/-- What can be no part of a `say` is no operand, and does not end it. -/
theorem of_isForeign (h : t.isForeign) :
    operand? t = none ∧ t.kind ≠ .newline ∧ t.kind ≠ .endOfInput ∧
      t.isKeyword .close = false := by
  unfold Token.isForeign at h
  split at h
  · rename_i k hkind
    simp_all [operand?, Token.isKeyword]
  · rename_i hkind
    simp [operand?, Token.isKeyword, hkind]
  all_goals cases h

/-- A statement was begun with the tokens `begun`, of which there is one at
    least, and `p` says how it can go on with `left`. -/
structure Unfinished (ts begun : List Token) (p : Pending)
    (left : List Token) : Prop where
  /-- Reading comes to the place where the statement starts. -/
  place : ∃ opened, Reaches ts opened (begun ++ left)
  nonempty : begun ≠ []
  begun : Begun begun p

theorem Stands.unfinished (h : Stands ts r left) (hp : r.pending ≠ .idle) :
    ∃ begun, Unfinished ts begun r.pending left := by
  obtain ⟨begun, hreaches, hbegun⟩ := h
  exact ⟨begun, ⟨_, hreaches⟩, hbegun.ne_nil hp, hbegun⟩

/-- A run on `ts` with this outcome met the fault, and this is why. -/
inductive FailsWith (limit : Nat) (ts : List Token) (o : Outcome) :
    ReadFault → Prop where
  | expected {begun p left slot} : Unfinished ts begun p left →
      left.tail = o.rest → p.slot? = some slot →
      slot.fits (Token.next ts left) = false →
      (o.taken ts).getLast? = some (Token.next ts left) →
      FailsWith limit ts o (.expected slot (Token.next ts left).describe
        (Token.next ts left).line)
  | unexpected {begun fragments after t} :
      Unfinished ts begun (.say fragments after) o.rest →
      o.rest.head? = some t → t.isForeign →
      FailsWith limit ts o (.unexpected t.describe t.line)
  | unclosedBlock {openedAt opened} : Reaches ts (openedAt :: opened) o.rest →
      (Token.next ts o.rest).kind = .endOfInput →
      FailsWith limit ts o
        (.unclosedBlock openedAt (Token.next ts o.rest).line)
  | blockLimit :
      FailsWith limit ts o (.blockLimit limit (Token.next ts o.rest).line)

theorem getLast?_taken (hts : ts = used ++ left)
    (ho : o.advances = used.length + 1) :
    (o.taken ts).getLast? = some (Token.next ts left) := by
  rw [Outcome.taken, ho, Token.next]
  generalize Token.lastLine ts = line
  subst hts
  cases left <;> simp [List.take_append]

/-- A reader that concludes with a fault is in an overfull block, or in one
    that is not closed. -/
theorem failsWith_of_conclude (hstands : Stands ts r o.rest)
    (hp : r.pending = .idle)
    (ht : (Token.next ts o.rest).kind = .endOfInput)
    (h : r.conclude limit (Token.next ts o.rest).line = .error e) :
    FailsWith limit ts o e := by
  have hreaches := hstands.reaches hp
  unfold conclude at h
  split at h
  · cases h
    exact .blockLimit
  · split at h
    · cases h
    · rename_i b outer hblocks
      cases h
      rw [openLines, hblocks] at hreaches
      exact .unclosedBlock hreaches ht

theorem failsWith_of_stops {uses : Bool} (hstands : Stands ts r left)
    (hts : ts = used ++ left)
    (hstops : Stops limit r (Token.next ts left) (.error e) uses)
    (hrest : o.rest = left.drop uses.toNat)
    (hadvances : o.advances = used.length + uses.toNat) :
    FailsWith limit ts o e := by
  generalize hresult : Except.error e = result at hstops
  cases hstops with
  | full _ _ =>
    have hrest : o.rest = left := hrest
    cases hresult
    rw [← hrest]
    exact .blockLimit
  | inputEnd hsettles hkind =>
    have hrest : o.rest = left := hrest
    have hstands := hstands.settles hsettles fun u hu => by
      rw [Token.next, Option.mem_def.mp hu]
      rfl
    rw [← hrest] at hstands hkind hresult
    exact failsWith_of_conclude hstands hsettles.pending hkind hresult.symm
  | misfit hslot hfits =>
    cases hresult
    have hp : r.pending ≠ .idle := by
      intro hp
      rw [hp] at hslot
      cases hslot
    obtain ⟨begun, hunfinished⟩ := hstands.unfinished hp
    refine .expected hunfinished ?_ hslot hfits (getLast?_taken hts hadvances)
    rw [hrest]
    exact List.drop_one.symm
  | unexpected hp hforeign _ =>
    have hrest : o.rest = left := hrest
    cases hresult
    obtain ⟨begun, hunfinished⟩ := hstands.unfinished (by simp [hp])
    rw [hp, ← hrest] at hunfinished
    refine .unexpected hunfinished ?_ hforeign
    rw [hrest]
    -- the extra token at the end is not foreign, so there is one left
    cases left with
    | nil => cases hforeign
    | cons t left => rfl

/-- Every fault of a run has its reason. -/
theorem failsWith_of_read (h : (Program.read limit ts).result = .error e) :
    FailsWith limit ts (Program.read limit ts) e := by
  obtain ⟨used, q, left, hts, hreads, hhalts⟩ :=
    exists_halts limit (Token.lastLine ts) initial 0 ts
  have hstands : Stands ts initial (used ++ left) := hts ▸ stands_initial ts
  replace hstands := hstands.reads hreads
  change Halts _ _ _ _ _ (Program.read limit ts) at hhalts
  rw [Nat.zero_add] at hhalts
  generalize Program.read limit ts = o at h hhalts
  cases hhalts with
  | used hstops =>
    cases h
    exact failsWith_of_stops hstands hts hstops rfl rfl
  | left hstops =>
    cases h
    exact failsWith_of_stops hstands hts hstops rfl rfl
  | ranOut hstops =>
    cases h
    exact failsWith_of_stops hstands hts hstops (by simp) rfl
  | inSay hmoves =>
    -- the end of the input completes a `say`, and ends the blocks around it
    obtain ⟨_, _, _, rfl⟩ := hmoves.eq_of_endOfInput rfl
    exact failsWith_of_conclude (hstands.ranOut rfl hmoves) rfl rfl h

end Reader

/-! ## Lines of a script -/

namespace Token

variable {script : String} {line : List Char} {number : Nat}
  {ls : List (List Char × Nat)} {ts ts' begun rest left : List Token}
  {t : Token}

/-- `t'` can come after `t` in a script: a line goes on until it ends. -/
def Follows (t t' : Token) : Prop :=
  t.kind = .newline ∨ t'.line = t.line ∧ t'.kind ≠ .endOfInput

theorem WholeLines.isChain_append (hts : WholeLines ts)
    (h : ts.IsChain Follows) (h' : ts'.IsChain Follows) :
    (ts ++ ts').IsChain Follows := by
  refine List.isChain_append.mpr ⟨h, h', ?_⟩
  intro t ht t' _
  exact .inl (hts.newline t ht)

theorem isChain_of_ofLine (h : ofLine line number = .ok ts) :
    ts.IsChain Follows := by
  refine (List.pairwise_of_forall_mem_list ?_).isChain
  intro t ht t' ht'
  have hline : t.line = number := (of_mem_ofLine h ht).1
  have hline' : t'.line = number := (of_mem_ofLine h ht').1
  exact .inr ⟨by rw [hline, hline'], (wholeLines_of_ofLine h).noEnd t' ht'⟩

theorem isChain_of_ofNumbered (h : ofNumbered ls = .ok ts) :
    ts.IsChain Follows := by
  induction ls generalizing ts with
  | nil =>
    cases h
    exact .nil
  | cons l ls ih =>
    obtain ⟨first, rest, hfirst, hrest, rfl⟩ := ofNumbered_cons_eq_ok h
    exact (wholeLines_of_ofLine hfirst).isChain_append
      (isChain_of_ofLine hfirst) (ih hrest)

theorem isChain_of_ofScript (h : ofScript script = .ok ts) :
    ts.IsChain Follows := by
  obtain ⟨body, hscan, hbody, rfl⟩ := exists_wholeLines_of_ofScript h
  exact hbody.isChain_append (isChain_of_ofNumbered hscan) (.singleton _)

/-- What comes after tokens that do not end a line is on the same line. -/
theorem line_of_isChain (h : (begun ++ t :: rest).IsChain Follows)
    (hbegun : begun ≠ []) (hkinds : ∀ u ∈ begun, u.kind ≠ .newline) :
    t.kind ≠ .endOfInput ∧ ∀ u ∈ begun, u.line = t.line := by
  induction begun with
  | nil => exact absurd rfl hbegun
  | cons u begun ih =>
    have hu : u.kind ≠ .newline := hkinds u List.mem_cons_self
    cases begun with
    | nil =>
      obtain ⟨hfollows, -⟩ := List.isChain_cons_cons.mp h
      obtain ⟨hline, hkind⟩ := hfollows.resolve_left hu
      refine ⟨hkind, ?_⟩
      intro v hv
      rw [List.mem_singleton.mp hv, hline]
    | cons v begun =>
      obtain ⟨hfollows, hchain⟩ := List.isChain_cons_cons.mp h
      obtain ⟨hline, -⟩ := hfollows.resolve_left hu
      obtain ⟨hkind, hlines⟩ := ih hchain (by simp)
        fun w hw => hkinds w (List.mem_cons_of_mem u hw)
      refine ⟨hkind, ?_⟩
      intro w hw
      rcases List.mem_cons.mp hw with rfl | hw
      · rw [← hline]
        exact hlines v List.mem_cons_self
      · exact hlines w hw

/-- With fewer than 2^32 lines, the lines of a script are numbered from 1 on,
    and the input ends on the last one. -/
theorem line_of_mem_ofScript (h : ofScript script = .ok ts)
    (hlines : (Text.lines script.toList).length < UInt32.size) (ht : t ∈ ts) :
    (t.kind = .endOfInput → t.line = lastLine ts) ∧
      (t.kind ≠ .endOfInput → 1 ≤ t.line ∧ t.line ≤ lastLine ts) := by
  obtain ⟨body, hscan, hbody, rfl⟩ := exists_wholeLines_of_ofScript h
  rw [lastLine_append _ (List.cons_ne_nil _ _)]
  rcases List.mem_append.mp ht with ht | ht
  · refine ⟨fun hkind => absurd hkind (hbody.noEnd t ht), fun _ => ?_⟩
    obtain ⟨line, hmem, -⟩ := exists_mem_of_mem_ofNumbered hscan ht
    rw [Text.numberedLines_of_lt hlines] at hmem
    rw [Text.lineNumber_of_lt hlines]
    exact Text.place_of_mem_placedLines hmem
  · rw [List.mem_singleton.mp ht]
    exact ⟨fun _ => rfl, fun hkind => absurd rfl hkind⟩

theorem getLast?_ofScript (h : ofScript script = .ok ts) :
    ∃ last, ts.getLast? = some last ∧ last.kind = .endOfInput := by
  obtain ⟨body, -, -, rfl⟩ := exists_wholeLines_of_ofScript h
  exact ⟨_, List.getLast?_concat, rfl⟩

end Token

namespace Program

open Grammar Reader

variable {limit : Nat} {script : String} {ts begun left rest : List Token}
  {p : Pending} {openedAt : Nat} {opened : List Nat}

/-- In a script a statement is on one line with the token after what was read
    of it, and the input does not end there. -/
theorem line_of_unfinished (hscript : Token.ofScript script = .ok ts)
    (h : Unfinished ts begun p left) :
    (Token.next ts left).kind ≠ .endOfInput ∧
      ∀ u ∈ begun, u.line = (Token.next ts left).line := by
  obtain ⟨opened, hreaches⟩ := h.place
  cases left with
  | nil =>
    -- the last token of the script would be one of the statement
    obtain ⟨last, hlast, hend⟩ := Token.getLast?_ofScript hscript
    obtain ⟨before, rfl⟩ := hreaches.suffix
    rw [List.append_nil, List.getLast?_append_of_ne_nil _ h.nonempty] at hlast
    exact absurd hend (h.begun.kinds last (List.mem_of_getLast? hlast)).2
  | cons t left =>
    have hchain := (Token.isChain_of_ofScript hscript).suffix hreaches.suffix
    exact Token.line_of_isChain hchain h.nonempty
      fun u hu => (h.begun.kinds u hu).1

/-- In a script of fewer than 2^32 lines, a block is opened on one of them, at
    the latest on the one where the input ends. -/
theorem line_of_reaches (hscript : Token.ofScript script = .ok ts)
    (hlines : (Text.lines script.toList).length < UInt32.size)
    (h : Reaches ts (openedAt :: opened) rest)
    (hend : (Token.next ts rest).kind = .endOfInput) :
    1 ≤ openedAt ∧ openedAt ≤ (Token.next ts rest).line := by
  have hline : (Token.next ts rest).line = Token.lastLine ts := by
    cases rest with
    | nil => rfl
    | cons t rest =>
      exact (Token.line_of_mem_ofScript hscript hlines
        (h.suffix.subset List.mem_cons_self)).1 hend
  rw [hline]
  cases h with
  | inside hreaches hheader _ =>
    obtain ⟨keyword, hmem, rfl, hkind⟩ := hheader.exists_keyword
    exact (Token.line_of_mem_ofScript hscript hlines
      (hreaches.suffix.subset hmem)).2 hkind

/-- **Faults tell the truth.**  A token that does not fit its place is the
    last one taken, and one that is unexpected in a `say` is the first one
    left.  Either way the fault gives its line and describes it, and in a
    script it is on the line of the statement it interrupts, where the input
    does not end.

    A block that is not closed is missed at the end of the input.  The fault
    gives the line of the keyword of the innermost open block: behind its
    header there are only complete statements, newlines and strays.  In a
    script of fewer than 2^32 lines that is one of them, and not after the
    last.

    A block that exceeds the limit is found out at the first token left. -/
theorem read_fault (limit : Nat) (ts : List Token) :
    (∀ slot found line,
      (read limit ts).result = .error (.expected slot found line) →
      ∃ t begun p left, ((read limit ts).taken ts).getLast? = some t ∧
        t.line = line ∧ t.describe = found ∧ slot.fits t = false ∧
        Token.next ts left = t ∧ left.tail = (read limit ts).rest ∧
        Unfinished ts begun p left ∧ p.slot? = some slot ∧
        ∀ script, Token.ofScript script = .ok ts →
          t.kind ≠ .endOfInput ∧ ∀ u ∈ begun, u.line = line) ∧
    (∀ found line,
      (read limit ts).result = .error (.unexpected found line) →
      ∃ t begun fragments after, (read limit ts).rest.head? = some t ∧
        t.line = line ∧ t.describe = found ∧ operand? t = none ∧
        t.kind ≠ .newline ∧ t.kind ≠ .endOfInput ∧
        t.isKeyword .close = false ∧
        Unfinished ts begun (.say fragments after) (read limit ts).rest ∧
        ∀ script, Token.ofScript script = .ok ts →
          ∀ u ∈ begun, u.line = line) ∧
    (∀ openedAt line,
      (read limit ts).result = .error (.unclosedBlock openedAt line) →
      (Token.next ts (read limit ts).rest).kind = .endOfInput ∧
      (Token.next ts (read limit ts).rest).line = line ∧
      (∃ opened header inside, Reaches ts opened header ∧
        IsHeader header openedAt inside ∧
        Items false inside (read limit ts).rest) ∧
      ∀ script, Token.ofScript script = .ok ts →
        (Text.lines script.toList).length < UInt32.size →
        1 ≤ openedAt ∧ openedAt ≤ line) ∧
    (∀ m line, (read limit ts).result = .error (.blockLimit m line) →
      m = limit ∧ (Token.next ts (read limit ts).rest).line = line) := by
  refine ⟨?_, ?_, ?_, ?_⟩
  · intro slot found line h
    cases failsWith_of_read h with
    | expected hunfinished hrest hslot hfits hlast =>
      exact ⟨_, _, _, _, hlast, rfl, rfl, hfits, rfl, hrest, hunfinished,
        hslot, fun script hscript => line_of_unfinished hscript hunfinished⟩
  · intro found line h
    cases failsWith_of_read h with
    | unexpected hunfinished hhead hforeign =>
      obtain ⟨hno, hnewline, hend, hclose⟩ := of_isForeign hforeign
      refine ⟨_, _, _, _, hhead, rfl, rfl, hno, hnewline, hend, hclose,
        hunfinished, fun script hscript => ?_⟩
      have hlines := (line_of_unfinished hscript hunfinished).2
      rw [Token.next, hhead] at hlines
      exact hlines
  · intro openedAt line h
    cases failsWith_of_read h with
    | unclosedBlock hreaches hend =>
      refine ⟨hend, rfl, ?_, fun script hscript hlines =>
        line_of_reaches hscript hlines hreaches hend⟩
      cases hreaches with
      | inside houter hheader hitems =>
        exact ⟨_, _, _, houter, hheader, hitems⟩
  · intro m line h
    cases failsWith_of_read h with
    | blockLimit => exact ⟨rfl, rfl⟩

/-- A block that is opened on line 1 and not closed in 2^32 lines is missed on
    line 0. -/
theorem unclosedBlock_on_line_zero :
    let script := "start:\n" ++ Text.newlines (UInt32.size - 1)
    let ts : List Token := [.ofKeyword 1 .start, .ofMark 1 ':', .newline 1,
      .endOfInput 0]
    Token.ofScript script = .ok ts ∧
      (read 10000 ts).result = .error (.unclosedBlock 1 0) := by
  intro script ts
  refine ⟨?_, rfl⟩
  have hstart : Token.ofNumbered (Text.numberedLines "start:\n".toList) =
      .ok [.ofKeyword 1 .start, .ofMark 1 ':', .newline 1] := by decide +kernel
  rw [Token.ofScript_append_eq (.inr (by decide))
    (Text.shifts_lineNumber _ _), hstart, Token.ofScript_newlines]
  rfl

end Program

end SayScript
