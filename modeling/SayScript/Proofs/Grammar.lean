import SayScript.Proofs.Runs

/-! # The grammar

    The grammar of programs, as relations between the tokens from some place
    on, what stands there, and the tokens that follow it:

        program   ::= (newline | stray | `end` | statement)*
        block     ::= (newline | stray | statement)* `end`
        statement ::= `function` name [name] `:` block
                    | `start` `:` block
                    | `say` (operand [`,`])* (newline | end of input
                                             | `end` `=` literal)
                    | `set` name
                    | name [operand]

    A comma after a fragment and an operand after the name of a callee are
    taken whenever they are there; the relations look one token ahead to say
    so.  Strays are symbols, literals and reserved keywords.

    The main result is that a reader finds exactly the programs of the
    grammar, provided that no block can exceed the limit. -/

namespace SayScript

namespace Grammar

/-- The tokens after `say`, with the fragments and the terminator. -/
inductive IsSay : List Token → List Operand → String → List Token → Prop where
  | newline {t rest} : t.kind = .newline →
      IsSay (t :: rest) [] Statement.defaultTerminator rest
  | inputEnd : IsSay [] [] Statement.defaultTerminator []
  | terminator {close equals text : Token} {rest} :
      close.isKeyword .close → equals.isSymbol '=' → text.kind = .literal →
      IsSay (close :: equals :: text :: rest) [] text.text rest
  | fragmentComma {t comma o ts fragments terminator rest} :
      Reader.operand? t = some o → comma.isSymbol ',' →
      IsSay ts fragments terminator rest →
      IsSay (t :: comma :: ts) (o :: fragments) terminator rest
  | fragment {t o ts fragments terminator rest} :
      Reader.operand? t = some o → (∀ c ∈ ts.head?, ¬ c.isSymbol ',') →
      IsSay ts fragments terminator rest →
      IsSay (t :: ts) (o :: fragments) terminator rest

mutual

/-- The tokens start with the statement. -/
inductive IsStatement : List Token → Statement → List Token → Prop where
  | function {keyword name colon : Token} {ts body rest} :
      keyword.isKeyword .function → name.kind = .identifier →
      colon.isSymbol ':' → IsBlock ts body rest →
      IsStatement (keyword :: name :: colon :: ts)
        (.function name.text none body) rest
  | functionWith {keyword name parameter colon : Token} {ts body rest} :
      keyword.isKeyword .function → name.kind = .identifier →
      parameter.kind = .identifier → colon.isSymbol ':' →
      IsBlock ts body rest →
      IsStatement (keyword :: name :: parameter :: colon :: ts)
        (.function name.text (some parameter.text) body) rest
  | start {keyword colon : Token} {ts body rest} :
      keyword.isKeyword .start → colon.isSymbol ':' →
      IsBlock ts body rest →
      IsStatement (keyword :: colon :: ts) (.start body) rest
  | say {keyword : Token} {ts fragments terminator rest} :
      keyword.isKeyword .say → IsSay ts fragments terminator rest →
      IsStatement (keyword :: ts) (.say fragments terminator) rest
  | set {keyword name : Token} {rest} :
      keyword.isKeyword .set → name.kind = .identifier →
      IsStatement (keyword :: name :: rest) (.set name.text) rest
  | callWith {name argument : Token} {o rest} :
      name.kind = .identifier → Reader.operand? argument = some o →
      IsStatement (name :: argument :: rest) (.call name.text (some o)) rest
  | call {name : Token} {rest} : name.kind = .identifier →
      (∀ t ∈ rest.head?, Reader.operand? t = none) →
      IsStatement (name :: rest) (.call name.text none) rest

/-- The tokens start with the body of a block and its `end`. -/
inductive IsBlock : List Token → List Statement → List Token → Prop where
  | close {t rest} : t.isKeyword .close → IsBlock (t :: rest) [] rest
  | pass {t ts body rest} : t.kind = .newline ∨ t.isStray →
      IsBlock ts body rest → IsBlock (t :: ts) body rest
  | statement {ts s mid body rest} : IsStatement ts s mid →
      IsBlock mid body rest → IsBlock ts (s :: body) rest

end

/-- The tokens are those of a program. -/
inductive IsProgram : List Token → List Statement → Prop where
  | nil : IsProgram [] []
  | pass {t ts ss} : t.kind = .newline ∨ t.isStray ∨ t.isKeyword .close →
      IsProgram ts ss → IsProgram (t :: ts) ss
  | statement {ts s mid ss} : IsStatement ts s mid →
      IsProgram mid ss → IsProgram ts (s :: ss)

/-! ## Lengths -/

theorem IsSay.length_le {ts fragments terminator rest}
    (h : IsSay ts fragments terminator rest) : rest.length ≤ ts.length := by
  induction h with
  | inputEnd => exact Nat.le_refl 0
  | _ => simp_all only [List.length_cons]; omega

mutual

/-- A statement has at least one token. -/
theorem IsStatement.length_lt : ∀ {ts s rest}, IsStatement ts s rest →
    rest.length < ts.length
  | _, _, _, .function _ _ _ hblock => by
    have := hblock.length_lt
    simp only [List.length_cons]; omega
  | _, _, _, .functionWith _ _ _ _ hblock => by
    have := hblock.length_lt
    simp only [List.length_cons]; omega
  | _, _, _, .start _ _ hblock => by
    have := hblock.length_lt
    simp only [List.length_cons]; omega
  | _, _, _, .say _ hsay => by
    have := hsay.length_le
    simp only [List.length_cons]; omega
  | _, _, _, .set _ _ => by simp only [List.length_cons]; omega
  | _, _, _, .callWith _ _ => by simp only [List.length_cons]; omega
  | _, _, _, .call _ _ => by simp only [List.length_cons]; omega

theorem IsBlock.length_lt : ∀ {ts body rest}, IsBlock ts body rest →
    rest.length < ts.length
  | _, _, _, .close _ => by simp only [List.length_cons]; omega
  | _, _, _, .pass _ hblock => by
    have := hblock.length_lt
    simp only [List.length_cons]; omega
  | _, _, _, .statement hstatement hblock => by
    have := hstatement.length_lt
    have := hblock.length_lt
    omega

end

end Grammar

namespace Reader

open Grammar

variable {limit line : Nat} {r q : Reader} {e t : Token}
  {ts rest : List Token} {p : Program}

/-! ## What the grammar derives is read

    Each derivation is followed through by the reader: after the tokens of a
    statement the result is the same as with the statement completed.  Room
    for the items still to come is kept by counting each token left as one
    item. -/

/-- A token between statements is read if there is room for an item. -/
theorem result_begins (hp : r.pending = .idle)
    (hroom : r.level.items ≤ limit) (h : Begins r t q) :
    r.result limit line (t :: ts) = q.result limit line ts := by
  apply result_cons
  refine .begins (.idle hp) ?_ h
  simp only [isOverfull, Bool.and_eq_false_iff, decide_eq_false_iff_not]
  exact .inr (by omega)

theorem kind_of_isKeyword {k : Keyword} (h : t.isKeyword k) :
    t.kind = .keyword k := by
  simpa [Token.isKeyword] using h

theorem isKeyword_of_kind {k : Keyword} (h : t.kind = .keyword k) :
    t.isKeyword k := by
  simp [Token.isKeyword, h]

theorem result_of_isSay {fragments : List Operand} {terminator : String}
    (he : e.kind = .endOfInput) (h : IsSay ts fragments terminator rest) :
    ∀ (r : Reader) (before : List Operand) (after : Bool),
      (r.await (.say before after)).result limit e.line (ts ++ [e]) =
        (r.complete (.say (before.reverse ++ fragments) terminator)).result
          limit e.line (rest ++ [e]) := by
  induction h with
  | newline hkind =>
    intro r before after
    rw [List.cons_append, result_cons (.lineEnd rfl (.inl hkind))]
    simp
  | inputEnd =>
    intro r before after
    rw [List.nil_append, result_cons (.lineEnd rfl (.inr he)),
      result_endOfInput rfl he, result_nil_of_idle rfl]
    simp
  | terminator hclose hequals htext =>
    intro r before after
    simp only [List.cons_append]
    rw [result_cons (.sayEnd rfl (kind_of_isKeyword hclose)),
      result_cons (.equals rfl hequals),
      result_cons (.terminator rfl htext)]
    simp
  | fragmentComma ho hcomma _ ih =>
    intro r before after
    simp only [List.cons_append]
    rw [result_cons (.fragment rfl ho), result_cons (.comma rfl hcomma),
      await_await, await_await, ih]
    simp
  | fragment ho _ _ ih =>
    intro r before after
    rw [List.cons_append, result_cons (.fragment rfl ho), await_await, ih]
    simp

mutual

theorem result_of_isStatement (he : e.kind = .endOfInput) :
    ∀ {ts s rest}, IsStatement ts s rest → ∀ r : Reader,
      r.pending = .idle → r.level.items + ts.length ≤ limit →
      r.result limit e.line (ts ++ [e]) =
        (r.complete s).result limit e.line (rest ++ [e])
  | _, _, _, .function hkeyword hname hcolon hblock, r, hp, hroom => by
    simp only [List.length_cons] at hroom
    simp only [List.cons_append]
    rw [result_begins hp (by omega) (.function (kind_of_isKeyword hkeyword)),
      result_cons (.functionName rfl hname), result_cons (.colon rfl hcolon),
      result_of_isBlock he hblock _ rfl rfl (by simp; omega)]
    rfl
  | _, _, _, .functionWith hkeyword hname hparameter hcolon hblock, r, hp,
      hroom => by
    simp only [List.length_cons] at hroom
    simp only [List.cons_append]
    rw [result_begins hp (by omega) (.function (kind_of_isKeyword hkeyword)),
      result_cons (.functionName rfl hname),
      result_cons (.parameter rfl hparameter),
      result_cons (.colon rfl hcolon),
      result_of_isBlock he hblock _ rfl rfl (by simp; omega)]
    rfl
  | _, _, _, .start hkeyword hcolon hblock, r, hp, hroom => by
    simp only [List.length_cons] at hroom
    simp only [List.cons_append]
    rw [result_begins hp (by omega) (.start (kind_of_isKeyword hkeyword)),
      result_cons (.colon rfl hcolon),
      result_of_isBlock he hblock _ rfl rfl (by simp; omega)]
    rfl
  | _, _, _, .say hkeyword hsay, r, hp, hroom => by
    rw [List.cons_append,
      result_begins hp (by omega) (.say (kind_of_isKeyword hkeyword)),
      result_of_isSay he hsay]
    rfl
  | _, _, _, .set hkeyword hname, r, hp, hroom => by
    simp only [List.cons_append]
    rw [result_begins hp (by omega) (.set (kind_of_isKeyword hkeyword)),
      result_cons (.set rfl hname), complete_await]
  | _, _, _, .callWith hname hargument, r, hp, hroom => by
    simp only [List.cons_append]
    rw [result_begins hp (by omega) (.call hname),
      result_cons (.argument rfl hargument), complete_await]
  | _, _, _, @IsStatement.call _ rest hname hno, r, hp, hroom => by
    rw [List.cons_append, result_begins hp (by omega) (.call hname),
      result_settle rfl, complete_await]
    -- nothing follows but perhaps the end of the input
    intro t ht
    cases rest with
    | nil =>
      obtain rfl : e = t := by simpa using ht
      simp [operand?, he]
    | cons t' rest => exact hno t ht

theorem result_of_isBlock (he : e.kind = .endOfInput) :
    ∀ {ts body rest}, IsBlock ts body rest → ∀ (r : Reader) {b outer},
      r.pending = .idle → r.blocks = b :: outer →
      r.level.items + ts.length ≤ limit →
      r.result limit e.line (ts ++ [e]) =
        Reader.result limit e.line
          { pending := .idle
            level := b.outer.push (b.header.block (r.level.body ++ body))
            blocks := outer } (rest ++ [e])
  | _, _, _, .close hclose, r, b, outer, hp, hblocks, hroom => by
    rw [List.cons_append,
      result_begins hp (by omega) (.close (kind_of_isKeyword hclose)),
      leave, hblocks, List.append_nil]
  | _, _, _, .pass (.inl hkind) hblock, r, b, outer, hp, hblocks, hroom => by
    rw [List.length_cons] at hroom
    rw [List.cons_append, result_begins hp (by omega) (.newline hkind),
      result_of_isBlock he hblock r hp hblocks (by omega)]
  | _, _, _, .pass (.inr hstray) hblock, r, b, outer, hp, hblocks, hroom => by
    rw [List.length_cons] at hroom
    rw [List.cons_append, result_begins hp (by omega) (.stray hstray),
      result_of_isBlock he hblock r.skip hp hblocks
        (by simp; omega)]
    simp
  | _, _, _, .statement hstatement hblock, r, b, outer, hp, hblocks,
      hroom => by
    have hshorter := hstatement.length_lt
    rw [result_of_isStatement he hstatement r hp hroom,
      result_of_isBlock he hblock (r.complete _) rfl hblocks
        (by simp; omega)]
    simp

end

theorem result_of_isProgram {ss : List Statement} (he : e.kind = .endOfInput)
    (h : IsProgram ts ss) : ∀ r : Reader, r.pending = .idle →
      r.blocks = [] → r.level.items + ts.length ≤ limit →
      r.result limit e.line (ts ++ [e]) =
        .ok { statements := r.level.body ++ ss } := by
  induction h with
  | nil =>
    intro r hp hblocks _
    rw [List.nil_append, result_endOfInput hp he]
    simp [conclude, isOverfull, hblocks]
  | pass hpass _ ih =>
    intro r hp hblocks hroom
    rw [List.length_cons] at hroom
    rw [List.cons_append]
    rcases hpass with hkind | hstray | hclose
    · rw [result_begins hp (by omega) (.newline hkind)]
      exact ih r hp hblocks (by omega)
    · rw [result_begins hp (by omega) (.stray hstray)]
      exact ih r.skip hp hblocks (by simp; omega)
    · rw [result_begins hp (by omega) (.close (kind_of_isKeyword hclose)),
        leave, hblocks]
      exact ih r.skip hp hblocks (by simp; omega)
  | statement hstatement _ ih =>
    intro r hp hblocks hroom
    have hshorter := hstatement.length_lt
    rw [result_of_isStatement he hstatement r hp hroom,
      ih (r.complete _) rfl hblocks (by simp; omega)]
    simp

/-! ## What is read has a derivation

    Here the tokens are followed from the front: a token that starts a
    statement is followed to the end of the statement, or of the header if
    it is a block, and what is left is shorter. -/

theorem moves_of_result (ht : t.kind ≠ .endOfInput)
    (h : r.result limit line (t :: ts) = .ok p) :
    ∃ q, Moves limit r t q ∧ q.result limit line ts = .ok p := by
  cases hfeed : r.feed limit t with
  | stop result uses =>
    rw [result_of_stop hfeed] at h
    subst h
    obtain ⟨_, _, hkind, _⟩ := feed_eq_stop_ok hfeed
    exact absurd hkind ht
  | next q =>
    have hmove := moves_of_feed hfeed
    rw [result_cons hmove] at h
    exact ⟨q, hmove, h⟩

/-- What the token does where only certain tokens fit. -/
inductive Fills (r : Reader) (t : Token) : Pending → Reader → Prop where
  | functionName {l} : t.kind = .identifier →
      Fills r t (.function l) (r.await (.functionName l t.text))
  | parameter {l name} : t.kind = .identifier →
      Fills r t (.functionName l name)
        (r.await (.functionParameter l name t.text))
  | functionColon {l name} : t.isSymbol ':' →
      Fills r t (.functionName l name) (r.enter (.function name none) l)
  | parameterColon {l name parameter} : t.isSymbol ':' →
      Fills r t (.functionParameter l name parameter)
        (r.enter (.function name (some parameter)) l)
  | startColon {l} : t.isSymbol ':' →
      Fills r t (.start l) (r.enter .start l)
  | equals {fragments} : t.isSymbol '=' →
      Fills r t (.sayEnd fragments) (r.await (.sayEquals fragments))
  | terminator {fragments} : t.kind = .literal →
      Fills r t (.sayEquals fragments)
        (r.complete (.say fragments.reverse t.text))
  | set : t.kind = .identifier → Fills r t .set (r.complete (.set t.text))

theorem fills_of_moves {pending : Pending} {slot : Slot}
    (hslot : pending.slot? = some slot)
    (h : Moves limit (r.await pending) t q) : Fills r t pending q := by
  have hfeed := feed_of_moves h
  cases pending with
  | functionName l name =>
    simp only [feed, await_pending] at hfeed
    split at hfeed
    · cases hfeed
      exact .functionColon ‹_›
    · split at hfeed <;> cases hfeed
      exact .parameter ‹_›
  | idle | say | call => cases hslot
  | _ =>
    simp only [feed, await_pending] at hfeed
    split at hfeed <;> cases hfeed
    constructor
    assumption

/-- Where only certain tokens fit, the input does not end. -/
theorem fills_of_result {pending : Pending} {slot : Slot}
    (hslot : pending.slot? = some slot) (he : e.kind = .endOfInput)
    (hts : ∀ t ∈ ts, t.kind ≠ .endOfInput)
    (h : (r.await pending).result limit line (ts ++ [e]) = .ok p) :
    ∃ t rest q, ts = t :: rest ∧ (∀ t ∈ rest, t.kind ≠ .endOfInput) ∧
      Fills r t pending q ∧ q.result limit line (rest ++ [e]) = .ok p := by
  cases ts with
  | nil =>
    have hmisfit : (r.await pending).feed limit e = .misfit slot e := by
      unfold Pending.slot? at hslot
      split at hslot <;> cases hslot <;>
        simp [feed, he, Token.isSymbol]
    rw [List.nil_append, result_of_stop hmisfit] at h
    cases h
  | cons t rest =>
    rw [List.forall_mem_cons] at hts
    rw [List.cons_append] at h
    obtain ⟨q, hmove, hq⟩ := moves_of_result hts.1 h
    exact ⟨t, rest, q, rfl, hts.2, fills_of_moves hslot hmove, hq⟩

/-- The reader stands after a header, and every body that follows makes a
    statement of the tokens from `t` on. -/
def Opened (limit : Nat) (e : Token) (r : Reader) (l : Nat) (t : Token)
    (ts : List Token) (p : Program) : Prop :=
  ∃ header mid, mid <:+ ts ∧
    (∀ body rest, IsBlock mid body rest →
      IsStatement (t :: ts) (header.block body) rest) ∧
    (r.enter header l).result limit e.line (mid ++ [e]) = .ok p

theorem opened_of_function {l : Nat} (ht : t.kind = .keyword .function)
    (he : e.kind = .endOfInput) (hts : ∀ t ∈ ts, t.kind ≠ .endOfInput)
    (h : (r.await (.function l)).result limit e.line (ts ++ [e]) = .ok p) :
    Opened limit e r l t ts p := by
  have hkeyword : t.isKeyword .function := isKeyword_of_kind ht
  obtain ⟨name, ts, q, rfl, hts, hfills, h⟩ := fills_of_result rfl he hts h
  cases hfills with
  | functionName hname =>
    obtain ⟨next, ts, q, rfl, hts, hfills, h⟩ := fills_of_result rfl he hts h
    cases hfills with
    | functionColon hcolon =>
      exact ⟨.function name.text none, ts, ⟨[name, next], rfl⟩,
        fun _ _ => .function hkeyword hname hcolon, h⟩
    | parameter hparameter =>
      obtain ⟨colon, ts, q, rfl, -, hfills, h⟩ := fills_of_result rfl he hts h
      cases hfills with
      | parameterColon hcolon =>
        exact ⟨.function name.text (some next.text), ts,
          ⟨[name, next, colon], rfl⟩,
          fun _ _ => .functionWith hkeyword hname hparameter hcolon, h⟩

theorem opened_of_start {l : Nat} (ht : t.kind = .keyword .start)
    (he : e.kind = .endOfInput) (hts : ∀ t ∈ ts, t.kind ≠ .endOfInput)
    (h : (r.await (.start l)).result limit e.line (ts ++ [e]) = .ok p) :
    Opened limit e r l t ts p := by
  have hkeyword : t.isKeyword .start := isKeyword_of_kind ht
  obtain ⟨colon, ts, q, rfl, -, hfills, h⟩ := fills_of_result rfl he hts h
  cases hfills with
  | startColon hcolon =>
    exact ⟨.start, ts, ⟨[colon], rfl⟩, fun _ _ => .start hkeyword hcolon, h⟩

/-- The tokens from `t` on start with a statement, and the reader goes on
    after it. -/
def Found (limit : Nat) (e : Token) (r : Reader) (t : Token)
    (ts : List Token) (p : Program) : Prop :=
  ∃ s rest, rest <:+ ts ∧ IsStatement (t :: ts) s rest ∧
    (r.complete s).result limit e.line (rest ++ [e]) = .ok p

theorem found_of_set (ht : t.kind = .keyword .set)
    (he : e.kind = .endOfInput) (hts : ∀ t ∈ ts, t.kind ≠ .endOfInput)
    (h : (r.await .set).result limit e.line (ts ++ [e]) = .ok p) :
    Found limit e r t ts p := by
  obtain ⟨name, ts, q, rfl, -, hfills, h⟩ := fills_of_result rfl he hts h
  cases hfills with
  | set hname =>
    exact ⟨.set name.text, ts, ⟨[name], rfl⟩,
      .set (isKeyword_of_kind ht) hname, h⟩

theorem found_of_call (ht : t.kind = .identifier)
    (he : e.kind = .endOfInput)
    (h : (r.await (.call t.text)).result limit e.line (ts ++ [e]) = .ok p) :
    Found limit e r t ts p := by
  by_cases hno : ∀ a ∈ ts.head?, operand? a = none
  · refine ⟨.call t.text none, ts, List.suffix_refl ts, .call ht hno, ?_⟩
    rw [result_settle rfl] at h
    · exact h
    · intro a ha
      cases ts with
      | nil =>
        obtain rfl : e = a := by simpa using ha
        simp [operand?, he]
      | cons a' ts => exact hno a ha
  · cases ts with
    | nil => simp at hno
    | cons a ts =>
      obtain ⟨o, ho⟩ : ∃ o, operand? a = some o := by
        rw [← Option.ne_none_iff_exists']
        simpa using hno
      rw [List.cons_append, result_cons (.argument rfl ho)] at h
      exact ⟨.call t.text (some o), ts, ⟨[a], rfl⟩, .callWith ht ho, h⟩

/-- What a token does in a `say`. -/
theorem Moves.of_say {before : List Operand} {after : Bool}
    (h : Moves limit (r.await (.say before after)) t q) :
    (after = true ∧ t.isSymbol ',' ∧ q = r.await (.say before false)) ∨
    ((t.kind = .newline ∨ t.kind = .endOfInput) ∧
      q = r.complete (.say before.reverse Statement.defaultTerminator)) ∨
    (t.kind = .keyword .close ∧ q = r.await (.sayEnd before)) ∨
    (∃ o, operand? t = some o ∧ q = r.await (.say (o :: before) true)) := by
  cases h with
  | comma hp hcomma => cases hp; exact .inl ⟨rfl, hcomma, rfl⟩
  | lineEnd hp hkind => cases hp; exact .inr (.inl ⟨hkind, rfl⟩)
  | sayEnd hp hkind => cases hp; exact .inr (.inr (.inl ⟨hkind, rfl⟩))
  | fragment hp ho => cases hp; exact .inr (.inr (.inr ⟨_, ho, rfl⟩))
  | begins hsettles _ _ => cases hsettles <;> contradiction
  | colon hp _ => cases hp
  | _ hp _ => cases hp

/-- A `say` is read up to its end.  After a fragment a comma belongs to what
    was read before, so none may follow. -/
theorem isSay_of_result {before : List Operand} {after : Bool}
    (he : e.kind = .endOfInput) (hts : ∀ t ∈ ts, t.kind ≠ .endOfInput)
    (hafter : after = true → ∀ c ∈ ts.head?, ¬ c.isSymbol ',')
    (h : (r.await (.say before after)).result limit e.line (ts ++ [e]) =
      .ok p) :
    ∃ fragments terminator rest, rest <:+ ts ∧
      IsSay ts fragments terminator rest ∧
      (r.complete (.say (before.reverse ++ fragments) terminator)).result
        limit e.line (rest ++ [e]) = .ok p := by
  -- a fragment and its comma are two tokens, hence the strong induction
  induction hn : ts.length using Nat.strongRecOn
    generalizing ts before after with
  | ind n ih =>
    cases ts with
    | nil =>
      refine ⟨[], Statement.defaultTerminator, [], List.suffix_refl [],
        .inputEnd, ?_⟩
      rw [List.nil_append, result_cons (.lineEnd rfl (.inr he)),
        result_nil_of_idle rfl] at h
      rw [List.nil_append, List.append_nil, result_endOfInput rfl he]
      exact h
    | cons t ts =>
      have hts' : ∀ t ∈ ts, t.kind ≠ .endOfInput :=
        fun t ht => hts t (List.mem_cons_of_mem _ ht)
      rw [List.cons_append] at h
      obtain ⟨q, hmove, hq⟩ := moves_of_result (hts t List.mem_cons_self) h
      rcases hmove.of_say with ⟨htrue, hcomma, -⟩ | ⟨hkind, rfl⟩ |
        ⟨hclose, rfl⟩ | ⟨o, ho, rfl⟩
      · exact absurd hcomma (hafter htrue t rfl)
      · have hnewline : t.kind = .newline :=
          hkind.resolve_right (hts t List.mem_cons_self)
        refine ⟨[], _, ts, List.suffix_cons t ts, .newline hnewline, ?_⟩
        rw [List.append_nil]
        exact hq
      · obtain ⟨equals, ts, q, rfl, hts, hfills, h⟩ :=
          fills_of_result rfl he hts' hq
        cases hfills with
        | equals hequals =>
          obtain ⟨text, ts, q, rfl, -, hfills, h⟩ :=
            fills_of_result rfl he hts h
          cases hfills with
          | terminator htext =>
            refine ⟨[], text.text, ts, ⟨[t, equals, text], rfl⟩,
              .terminator (isKeyword_of_kind hclose) hequals htext,
              ?_⟩
            rw [List.append_nil]
            exact h
      · by_cases hcomma : ∀ c ∈ ts.head?, ¬ c.isSymbol ','
        · obtain ⟨fragments, terminator, rest, hsuffix, hsay, hrest⟩ :=
            ih ts.length (by simp only [← hn, List.length_cons]; omega) hts'
              (fun _ => hcomma) hq rfl
          refine ⟨o :: fragments, terminator, rest,
            hsuffix.trans (List.suffix_cons t ts),
            .fragment ho hcomma hsay, ?_⟩
          simpa using hrest
        · cases ts with
          | nil => simp at hcomma
          | cons c ts =>
            have hc : c.isSymbol ',' := by simpa using hcomma
            rw [List.cons_append, result_cons (.comma rfl hc)] at hq
            have hshorter : ts.length < n := by
              simp only [← hn, List.length_cons]
              omega
            obtain ⟨fragments, terminator, rest, hsuffix, hsay, hrest⟩ :=
              ih ts.length hshorter (List.forall_mem_cons.mp hts').2 (by simp)
                hq rfl
            refine ⟨o :: fragments, terminator, rest,
              hsuffix.trans ⟨[t, c], rfl⟩,
              .fragmentComma ho hc hsay, ?_⟩
            simpa using hrest

theorem found_of_say (ht : t.kind = .keyword .say)
    (he : e.kind = .endOfInput) (hts : ∀ t ∈ ts, t.kind ≠ .endOfInput)
    (h : (r.await (.say [] false)).result limit e.line (ts ++ [e]) = .ok p) :
    Found limit e r t ts p := by
  obtain ⟨fragments, terminator, rest, hsuffix, hsay, hrest⟩ :=
    isSay_of_result he hts (by simp) h
  exact ⟨.say fragments terminator, rest, hsuffix,
    .say (isKeyword_of_kind ht) hsay, hrest⟩

/-- What the grammar says about the tokens that are left: they close the open
    blocks one after the other, and the rest belongs to the program. -/
def Completes (done : List Statement) :
    List OpenBlock → List Token → Program → Prop
  | [], ts, p => ∃ ss, IsProgram ts ss ∧ p.statements = done ++ ss
  | b :: outer, ts, p => ∃ body rest, IsBlock ts body rest ∧
      Completes (b.outer.body ++ [b.header.block (done ++ body)]) outer rest p

theorem Completes.pass {done : List Statement} {blocks : List OpenBlock}
    (ht : t.kind = .newline ∨ t.isStray) (h : Completes done blocks ts p) :
    Completes done blocks (t :: ts) p := by
  cases blocks with
  | nil =>
    obtain ⟨ss, hprogram, hp⟩ := h
    exact ⟨ss, .pass (ht.imp_right .inl) hprogram, hp⟩
  | cons b outer =>
    obtain ⟨body, rest, hblock, hrest⟩ := h
    exact ⟨body, rest, .pass ht hblock, hrest⟩

theorem Completes.statement {done : List Statement}
    {blocks : List OpenBlock} {s : Statement}
    (hs : IsStatement ts s rest) (h : Completes (done ++ [s]) blocks rest p) :
    Completes done blocks ts p := by
  cases blocks with
  | nil =>
    obtain ⟨ss, hprogram, hp⟩ := h
    exact ⟨s :: ss, .statement hs hprogram, by simpa using hp⟩
  | cons b outer =>
    obtain ⟨body, rest, hblock, hrest⟩ := h
    exact ⟨s :: body, rest, .statement hs hblock, by simpa using hrest⟩

theorem completes_of_result (he : e.kind = .endOfInput)
    (hts : ∀ t ∈ ts, t.kind ≠ .endOfInput) (hp : r.pending = .idle)
    (h : r.result limit e.line (ts ++ [e]) = .ok p) :
    Completes r.level.body r.blocks ts p := by
  induction hn : ts.length using Nat.strongRecOn generalizing ts r with
  | ind n ih =>
    cases ts with
    | nil =>
      rw [List.nil_append, result_endOfInput hp he] at h
      obtain ⟨hblocks, rfl⟩ := conclude_eq_ok h
      rw [hblocks]
      exact ⟨[], .nil, by simp⟩
    | cons t ts =>
      -- what is left after a part of `ts` is shorter and as well formed
      have hleft : ∀ rest, rest <:+ ts → ∀ r : Reader, r.pending = .idle →
          r.result limit e.line (rest ++ [e]) = .ok p →
          Completes r.level.body r.blocks rest p := by
        intro rest hsuffix r hidle hrest
        have hshorter := hsuffix.length_le
        exact ih rest.length (by simp only [← hn, List.length_cons]; omega)
          (fun t ht => hts t (List.mem_cons_of_mem _ (hsuffix.subset ht)))
          hidle hrest rfl
      have hts' : ∀ t ∈ ts, t.kind ≠ .endOfInput :=
        fun t ht => hts t (List.mem_cons_of_mem _ ht)
      have hfound : Found limit e r t ts p →
          Completes r.level.body r.blocks (t :: ts) p := by
        rintro ⟨s, rest, hsuffix, hs, hrest⟩
        have := hleft rest hsuffix (r.complete s) rfl hrest
        rw [complete_level, Level.body_push] at this
        exact this.statement hs
      have hopened : ∀ l, Opened limit e r l t ts p →
          Completes r.level.body r.blocks (t :: ts) p := by
        rintro l ⟨header, mid, hsuffix, hs, hmid⟩
        obtain ⟨body, rest, hblock, hrest⟩ :=
          hleft mid hsuffix (r.enter header l) rfl hmid
        exact Completes.statement (hs body rest hblock) hrest
      rw [List.cons_append] at h
      obtain ⟨q, hmove, hq⟩ := moves_of_result (hts t List.mem_cons_self) h
      have hrest := hleft ts (List.suffix_refl ts)
      cases hmove.of_idle hp with
      | newline hkind => exact (hrest r hp hq).pass (.inl hkind)
      | stray hstray => exact (hrest r.skip hp hq).pass (.inr hstray)
      | close hkind =>
        have hclose : t.isKeyword .close := isKeyword_of_kind hkind
        cases hblocks : r.blocks with
        | nil =>
          rw [leave, hblocks] at hq
          obtain ⟨ss, hprogram, hp⟩ : Completes r.level.body [] ts p := by
            have := hrest r.skip hp hq
            rwa [skip_blocks, hblocks] at this
          exact ⟨ss, .pass (.inr (.inr hclose)) hprogram, hp⟩
        | cons b outer =>
          rw [leave, hblocks] at hq
          refine ⟨[], ts, .close hclose, ?_⟩
          have := hrest _ rfl hq
          rwa [Level.body_push, ← List.append_nil r.level.body] at this
      | call hkind => exact hfound (found_of_call hkind he hq)
      | say hkind => exact hfound (found_of_say hkind he hts' hq)
      | set hkind => exact hfound (found_of_set hkind he hts' hq)
      | function hkind => exact hopened _ (opened_of_function hkind he hts' hq)
      | start hkind => exact hopened _ (opened_of_start hkind he hts' hq)

end Reader

/-- **A reader accepts exactly the grammar.**  Tokens that do not hold the end
    of the input, followed by it, and a limit that they cannot exceed: the
    programs that are read are those the grammar derives, there is at most
    one, and if there is none the reader stops with a fault. -/
theorem Program.ofTokens_eq_ok_iff_isProgram (limit : Nat) (ts : List Token)
    (e : Token) (he : e.kind = .endOfInput)
    (hts : ∀ t ∈ ts, t.kind ≠ .endOfInput) (hlimit : ts.length ≤ limit) :
    (∀ p, Program.ofTokens limit (ts ++ [e]) = .ok p ↔
      Grammar.IsProgram ts p.statements) ∧
    (∀ ss ss', Grammar.IsProgram ts ss → Grammar.IsProgram ts ss' →
      ss = ss') ∧
    ((∀ ss, ¬ Grammar.IsProgram ts ss) →
      ∃ fault, Program.ofTokens limit (ts ++ [e]) = .error fault) := by
  have hline : Token.lastLine (ts ++ [e]) = e.line := by
    simp [Token.lastLine]
  have hcomplete : ∀ ss, Grammar.IsProgram ts ss →
      Program.ofTokens limit (ts ++ [e]) = .ok { statements := ss } := by
    intro ss h
    rw [Reader.ofTokens_eq_result, hline]
    exact Reader.result_of_isProgram he h Reader.initial rfl rfl (by
      simpa [Reader.initial] using hlimit)
  have hsound : ∀ p, Program.ofTokens limit (ts ++ [e]) = .ok p →
      Grammar.IsProgram ts p.statements := by
    intro p h
    rw [Reader.ofTokens_eq_result, hline] at h
    obtain ⟨ss, hprogram, hp⟩ :=
      Reader.completes_of_result he hts (by rfl) h
    rw [hp]
    exact hprogram
  refine ⟨fun p => ⟨hsound p, hcomplete p.statements⟩, ?_, ?_⟩
  · intro ss ss' h h'
    have heq := (hcomplete ss h).symm.trans (hcomplete ss' h')
    simpa using heq
  · intro hnone
    cases hread : Program.ofTokens limit (ts ++ [e]) with
    | error fault => exact ⟨fault, rfl⟩
    | ok p => exact absurd (hsound p hread) (hnone p.statements)

/-- An `end` that names a terminator, one that closes a block, one that is
    passed over, and a `say` that the input ends in. -/
theorem Program.ofTokens_eq_ok_iff_isProgram_ends :
    let ts : List Token := [
      ⟨.keyword .function, "function", 1⟩, ⟨.identifier, "f", 1⟩,
      ⟨.symbol, ":", 1⟩, ⟨.newline, "\n", 1⟩, ⟨.literal, "stray", 2⟩,
      ⟨.keyword .say, "say", 2⟩, ⟨.identifier, "a", 2⟩, ⟨.symbol, ",", 2⟩,
      ⟨.literal, "b", 2⟩, ⟨.keyword .close, "end", 2⟩, ⟨.symbol, "=", 2⟩,
      ⟨.literal, "!", 2⟩, ⟨.keyword .close, "end", 3⟩,
      ⟨.keyword .close, "end", 4⟩, ⟨.keyword .say, "say", 5⟩]
    (Token.endOfInput 5).kind = .endOfInput ∧
      (∀ t ∈ ts, t.kind ≠ .endOfInput) ∧ ts.length ≤ 15 ∧
      Grammar.IsProgram ts [
        .function "f" none [.say [.var "a", .literal "b"] "!"],
        .say [] Statement.defaultTerminator] := by
  intro ts
  have hts : ∀ t ∈ ts, t.kind ≠ .endOfInput := by decide
  have hlimit : ts.length ≤ 15 := by decide
  have hread : Program.ofTokens 15 (ts ++ [.endOfInput 5]) = .ok ⟨[
      .function "f" none [.say [.var "a", .literal "b"] "!"],
      .say [] Statement.defaultTerminator]⟩ := rfl
  have haccepts := (Program.ofTokens_eq_ok_iff_isProgram 15 ts
    (.endOfInput 5) rfl hts hlimit).1
  exact ⟨rfl, hts, hlimit, (haccepts _).mp hread⟩

end SayScript
