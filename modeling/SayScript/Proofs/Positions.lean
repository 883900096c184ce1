import SayScript.Proofs.Grammar

/-! # Where a reader stands

    The relations of this module follow the grammar from the left.  They say
    what was read before some place, also if what comes after it is no
    program: which blocks are open there, what was read of the innermost
    one, and how much of the next statement.  An end-of-input token ends a
    `say` as the end of a line does, and reading goes on behind it.

    `Reader.Stands ts r left` is the invariant of runs: of the tokens `ts`
    those in `left` are not read, the open blocks of `r` are the ones open
    there, and the statement that `r` is in the middle of is begun. -/

namespace SayScript

namespace Grammar

/-- Operands, each with or without a comma behind it.  The flag tells if the
    last token is an operand, so that a comma may follow. -/
inductive Fragments : List Token → Bool → Prop where
  | nil : Fragments [] false
  | operand {ts after t o} : Fragments ts after →
      Reader.operand? t = some o → Fragments (ts ++ [t]) true
  | comma {ts t} : Fragments ts true → t.isSymbol ',' →
      Fragments (ts ++ [t]) false

/-- The tokens start with a statement that is no block. -/
inductive IsSimple : List Token → List Token → Prop where
  | sayLine {keyword t : Token} {fragments after rest} :
      keyword.isKeyword .say → Fragments fragments after →
      t.kind = .newline ∨ t.kind = .endOfInput →
      IsSimple (keyword :: (fragments ++ t :: rest)) rest
  | sayOut {keyword : Token} {fragments after} :
      keyword.isKeyword .say → Fragments fragments after →
      IsSimple (keyword :: fragments) []
  | sayEnd {keyword close equals text : Token} {fragments after rest} :
      keyword.isKeyword .say → Fragments fragments after →
      close.isKeyword .close → equals.isSymbol '=' → text.kind = .literal →
      IsSimple (keyword :: (fragments ++ close :: equals :: text :: rest)) rest
  | set {keyword name : Token} {rest} :
      keyword.isKeyword .set → name.kind = .identifier →
      IsSimple (keyword :: name :: rest) rest
  | callWith {name argument : Token} {o rest} :
      name.kind = .identifier → Reader.operand? argument = some o →
      IsSimple (name :: argument :: rest) rest
  | call {name : Token} {rest} : name.kind = .identifier →
      (∀ t ∈ rest.head?, Reader.operand? t = none) →
      IsSimple (name :: rest) rest

/-- The tokens start with the header of a block, whose keyword stands on the
    given line.  What follows the colon is inside the block. -/
inductive IsHeader : List Token → Nat → List Token → Prop where
  | function {keyword name colon : Token} {inside} :
      keyword.isKeyword .function → name.kind = .identifier →
      colon.isSymbol ':' →
      IsHeader (keyword :: name :: colon :: inside) keyword.line inside
  | functionWith {keyword name parameter colon : Token} {inside} :
      keyword.isKeyword .function → name.kind = .identifier →
      parameter.kind = .identifier → colon.isSymbol ':' →
      IsHeader (keyword :: name :: parameter :: colon :: inside)
        keyword.line inside
  | start {keyword colon : Token} {inside} :
      keyword.isKeyword .start → colon.isSymbol ':' →
      IsHeader (keyword :: colon :: inside) keyword.line inside

/-- The tokens start with complete statements, newlines and strays.  Outside
    all blocks, and only there, an `end` is passed over too. -/
inductive Items : Bool → List Token → List Token → Prop where
  | nil {outside ts} : Items outside ts ts
  | pass {outside ts t rest} : Items outside ts (t :: rest) →
      t.kind = .newline ∨ t.isStray → Items outside ts rest
  | passClose {ts t rest} : Items true ts (t :: rest) →
      t.isKeyword .close → Items true ts rest
  | simple {outside ts mid rest} : Items outside ts mid →
      IsSimple mid rest → Items outside ts rest
  | block {outside ts header line inside close rest} :
      Items outside ts header → IsHeader header line inside →
      Items false inside (close :: rest) → close.isKeyword .close →
      Items outside ts rest

/-- A statement may start at `rest`, inside the blocks that were opened on
    the given lines, innermost first. -/
inductive Reaches (ts : List Token) : List Nat → List Token → Prop where
  | outside {rest} : Items true ts rest → Reaches ts [] rest
  | inside {opened header line inside rest} : Reaches ts opened header →
      IsHeader header line inside → Items false inside rest →
      Reaches ts (line :: opened) rest

/-- The tokens of a statement that is not complete. -/
inductive Begun : List Token → Pending → Prop where
  | idle : Begun [] .idle
  | function {keyword : Token} : keyword.isKeyword .function →
      Begun [keyword] (.function keyword.line)
  | functionName {keyword name : Token} : keyword.isKeyword .function →
      name.kind = .identifier →
      Begun [keyword, name] (.functionName keyword.line name.text)
  | functionParameter {keyword name parameter : Token} :
      keyword.isKeyword .function → name.kind = .identifier →
      parameter.kind = .identifier →
      Begun [keyword, name, parameter]
        (.functionParameter keyword.line name.text parameter.text)
  | start {keyword : Token} : keyword.isKeyword .start →
      Begun [keyword] (.start keyword.line)
  | say {keyword : Token} {ts fragments after} : keyword.isKeyword .say →
      Fragments ts after → Begun (keyword :: ts) (.say fragments after)
  | sayEnd {keyword close : Token} {ts fragments after} :
      keyword.isKeyword .say → Fragments ts after →
      close.isKeyword .close →
      Begun (keyword :: (ts ++ [close])) (.sayEnd fragments)
  | sayEquals {keyword close equals : Token} {ts fragments after} :
      keyword.isKeyword .say → Fragments ts after →
      close.isKeyword .close → equals.isSymbol '=' →
      Begun (keyword :: (ts ++ [close, equals])) (.sayEquals fragments)
  | set {keyword : Token} : keyword.isKeyword .set → Begun [keyword] .set
  | call {name : Token} : name.kind = .identifier →
      Begun [name] (.call name.text)

variable {ts mid rest header inside begun : List Token} {opened : List Nat}
  {line : Nat} {outside : Bool} {p : Pending} {t : Token}

/-! ## What is read on from a place -/

/-- What goes on with the items of any level goes on with those of the
    innermost open block. -/
theorem Reaches.extend (h : Reaches ts opened mid)
    (hitems : ∀ outside first, Items outside first mid →
      Items outside first rest) : Reaches ts opened rest := by
  cases h with
  | outside htop => exact .outside (hitems _ _ htop)
  | inside hreaches hheader hinside =>
    exact .inside hreaches hheader (hitems _ _ hinside)

theorem Reaches.pass (h : Reaches ts opened (t :: rest))
    (ht : t.kind = .newline ∨ t.isStray) : Reaches ts opened rest :=
  h.extend fun _ _ hitems => hitems.pass ht

theorem Reaches.simple (h : Reaches ts opened mid) (hmid : IsSimple mid rest) :
    Reaches ts opened rest :=
  h.extend fun _ _ hitems => hitems.simple hmid

theorem Reaches.enter (h : Reaches ts opened header)
    (hheader : IsHeader header line inside) :
    Reaches ts (line :: opened) inside :=
  .inside h hheader .nil

/-- An `end` closes the innermost block, and outside all blocks it is passed
    over. -/
theorem Reaches.close (h : Reaches ts opened (t :: rest))
    (ht : t.isKeyword .close) : Reaches ts opened.tail rest := by
  cases h with
  | outside htop => exact .outside (htop.passClose ht)
  | inside hreaches hheader hinside =>
    exact hreaches.extend fun _ _ hitems => hitems.block hheader hinside ht

/-! ## Places are suffixes -/

theorem IsSimple.suffix (h : IsSimple ts rest) : rest <:+ ts := by
  cases h with
  | @sayLine keyword t fragments =>
    exact ⟨keyword :: (fragments ++ [t]), by simp⟩
  | sayOut _ _ => exact List.nil_suffix
  | @sayEnd keyword close equals text fragments =>
    exact ⟨keyword :: (fragments ++ [close, equals, text]), by simp⟩
  | set _ _ => exact ⟨[_, _], rfl⟩
  | callWith _ _ => exact ⟨[_, _], rfl⟩
  | call _ _ => exact List.suffix_cons _ _

theorem IsHeader.suffix (h : IsHeader header line inside) :
    inside <:+ header := by
  cases h with
  | function _ _ _ => exact ⟨[_, _, _], rfl⟩
  | functionWith _ _ _ _ => exact ⟨[_, _, _, _], rfl⟩
  | start _ _ => exact ⟨[_, _], rfl⟩

theorem IsHeader.exists_keyword (h : IsHeader header line inside) :
    ∃ keyword ∈ header, keyword.line = line ∧ keyword.kind ≠ .endOfInput := by
  cases h with
  | function hk _ _ | functionWith hk _ _ _ | start hk _ =>
    exact ⟨_, List.mem_cons_self, rfl, by simp [Reader.kind_of_isKeyword hk]⟩

theorem Items.suffix (h : Items outside ts rest) : rest <:+ ts := by
  induction h with
  | nil => exact List.suffix_rfl
  | pass _ _ ih => exact (List.suffix_cons _ _).trans ih
  | passClose _ _ ih => exact (List.suffix_cons _ _).trans ih
  | simple _ hsimple ih => exact hsimple.suffix.trans ih
  | block _ hheader _ _ ihBefore ihInside =>
    have hclose := (List.suffix_cons _ _).trans ihInside
    exact (hclose.trans hheader.suffix).trans ihBefore

theorem Reaches.suffix (h : Reaches ts opened rest) : rest <:+ ts := by
  induction h with
  | outside htop => exact htop.suffix
  | inside _ hheader hinside ih =>
    exact (hinside.suffix.trans hheader.suffix).trans ih

/-! ## The tokens of a begun statement -/

theorem Fragments.kinds {after : Bool} (h : Fragments ts after) :
    ∀ t ∈ ts, t.kind ≠ .newline ∧ t.kind ≠ .endOfInput := by
  induction h with
  | nil => simp
  | operand _ ho ih =>
    refine List.forall_mem_append.mpr ⟨ih, List.forall_mem_singleton.mpr ?_⟩
    rcases Reader.kind_of_operand? ho with ⟨hkind, -⟩ | ⟨hkind, -⟩ <;>
      simp [hkind]
  | comma _ hcomma ih =>
    refine List.forall_mem_append.mpr ⟨ih, List.forall_mem_singleton.mpr ?_⟩
    simp [Reader.kind_of_isSymbol hcomma]

/-- A line does not end within a statement, and the input does not either. -/
theorem Begun.kinds (h : Begun begun p) :
    ∀ t ∈ begun, t.kind ≠ .newline ∧ t.kind ≠ .endOfInput := by
  cases h with
  | idle => simp
  | function hk | start hk | set hk => simp [Reader.kind_of_isKeyword hk]
  | call hname => simp [hname]
  | functionName hk hname => simp [Reader.kind_of_isKeyword hk, hname]
  | functionParameter hk hname hparameter =>
    simp [Reader.kind_of_isKeyword hk, hname, hparameter]
  | say hk hfragments =>
    refine List.forall_mem_cons.mpr ⟨?_, hfragments.kinds⟩
    simp [Reader.kind_of_isKeyword hk]
  | sayEnd hk hfragments hclose =>
    refine List.forall_mem_cons.mpr
      ⟨?_, List.forall_mem_append.mpr ⟨hfragments.kinds, ?_⟩⟩
    · simp [Reader.kind_of_isKeyword hk]
    · simp [Reader.kind_of_isKeyword hclose]
  | sayEquals hk hfragments hclose hequals =>
    refine List.forall_mem_cons.mpr
      ⟨?_, List.forall_mem_append.mpr ⟨hfragments.kinds, ?_⟩⟩
    · simp [Reader.kind_of_isKeyword hk]
    · simp [Reader.kind_of_isKeyword hclose, Reader.kind_of_isSymbol hequals]

theorem Begun.ne_nil (h : Begun begun p) (hp : p ≠ .idle) : begun ≠ [] := by
  rintro rfl
  cases h
  exact hp rfl

/-- A colon completes the header of a block. -/
theorem Begun.isHeader {opens : Header} (h : Begun begun p)
    (hp : p.header? = some (opens, line)) (ht : t.isSymbol ':') :
    IsHeader (begun ++ t :: rest) line rest := by
  cases h <;> cases hp
  case functionName hk hn => exact .function hk hn ht
  case functionParameter hk hn hparameter =>
    exact .functionWith hk hn hparameter ht
  case start hk => exact .start hk ht

end Grammar

namespace Reader

open Grammar

variable {limit : Nat} {r q : Reader} {t : Token} {ts used left : List Token}

/-! ## The invariant of runs -/

/-- The lines that the open blocks were opened on, innermost first. -/
def openLines (r : Reader) : List Nat :=
  r.blocks.map (·.openedAt)

/-- `r` is a reader of `ts` that did not read the tokens `left` yet. -/
def Stands (ts : List Token) (r : Reader) (left : List Token) : Prop :=
  ∃ begun, Reaches ts r.openLines (begun ++ left) ∧ Begun begun r.pending

theorem openLines_leave (r : Reader) : r.leave.openLines = r.openLines.tail := by
  obtain ⟨pending, level, blocks⟩ := r
  cases blocks <;> rfl

theorem stands_initial (ts : List Token) : Stands ts initial ts :=
  ⟨[], .outside .nil, .idle⟩

/-- Between statements a reader stands where one may start. -/
theorem Stands.reaches (h : Stands ts r left) (hp : r.pending = .idle) :
    Reaches ts r.openLines left := by
  obtain ⟨begun, hreaches, hbegun⟩ := h
  rw [hp] at hbegun
  cases hbegun
  exact hreaches

theorem stands_of_idle (h : Reaches ts r.openLines left)
    (hp : r.pending = .idle) : Stands ts r left :=
  ⟨[], h, hp ▸ .idle⟩

/-- A call is complete when no operand follows.  The token that follows may
    be one that is not in the list. -/
theorem Stands.settles (h : Stands ts r left) (hsettles : Settles r t q)
    (ht : ∀ u ∈ left.head?, u = t) : Stands ts q left := by
  cases hsettles with
  | idle _ => exact h
  | call hp hno =>
    obtain ⟨begun, hreaches, hbegun⟩ := h
    rw [hp] at hbegun
    cases hbegun with
    | call hname =>
      have hcall : IsSimple ([_] ++ left) left := .call hname fun u hu => by
        rw [ht u hu]
        exact hno
      exact stands_of_idle (hreaches.simple hcall) rfl

/-- The next token belongs to the statement, which is still not complete. -/
theorem stands_of_begun {begun : List Token}
    (h : Reaches ts r.openLines (begun ++ t :: left))
    (hbegun : Begun (begun ++ [t]) r.pending) : Stands ts r left := by
  refine ⟨begun ++ [t], ?_, hbegun⟩
  rw [List.append_assoc]
  exact h

/-- Between statements every token is passed over, closes a block or begins
    a statement. -/
theorem Stands.begins (h : Stands ts r (t :: left)) (hp : r.pending = .idle)
    (hbegins : Begins r t q) : Stands ts q left := by
  have hreaches : Reaches ts r.openLines ([] ++ t :: left) := h.reaches hp
  cases hbegins with
  | newline hkind => exact stands_of_idle (hreaches.pass (.inl hkind)) hp
  | stray hstray => exact stands_of_idle (hreaches.pass (.inr hstray)) hp
  | call hkind => exact stands_of_begun hreaches (.call hkind)
  | function hkind =>
    exact stands_of_begun hreaches (.function (isKeyword_of_kind hkind))
  | start hkind =>
    exact stands_of_begun hreaches (.start (isKeyword_of_kind hkind))
  | say hkind =>
    exact stands_of_begun hreaches (.say (isKeyword_of_kind hkind) .nil)
  | set hkind =>
    exact stands_of_begun hreaches (.set (isKeyword_of_kind hkind))
  | close hkind =>
    refine stands_of_idle ?_ (leave_pending hp)
    rw [openLines_leave]
    exact hreaches.close (isKeyword_of_kind hkind)

/-- **What one move keeps.**  The token goes on with the statement that is
    begun, completes it, or opens its block. -/
theorem Stands.moves (h : Stands ts r (t :: left))
    (hmoves : Moves limit r t q) : Stands ts q left := by
  -- a move within a statement fixes what is pending, and so the tokens of
  -- the statement that were read before
  have ⟨begun, hreaches, hbegun⟩ := h
  cases hmoves with
  | begins hsettles _ hbegins =>
    exact (h.settles hsettles (by simp)).begins hsettles.pending hbegins
  | functionName hp hname =>
    rw [hp] at hbegun
    cases hbegun with
    | function hk => exact stands_of_begun hreaches (.functionName hk hname)
  | parameter hp hparameter =>
    rw [hp] at hbegun
    cases hbegun with
    | functionName hk hname =>
      exact stands_of_begun hreaches (.functionParameter hk hname hparameter)
  | colon hp hcolon =>
    exact stands_of_idle (hreaches.enter (hbegun.isHeader hp hcolon)) rfl
  | fragment hp ho =>
    rw [hp] at hbegun
    cases hbegun with
    | say hk hfragments =>
      exact stands_of_begun hreaches (.say hk (hfragments.operand ho))
  | comma hp hcomma =>
    rw [hp] at hbegun
    cases hbegun with
    | say hk hfragments =>
      exact stands_of_begun hreaches (.say hk (hfragments.comma hcomma))
  | lineEnd hp hkind =>
    rw [hp] at hbegun
    cases hbegun with
    | say hk hfragments =>
      exact stands_of_idle (hreaches.simple (.sayLine hk hfragments hkind)) rfl
  | sayEnd hp hkind =>
    rw [hp] at hbegun
    cases hbegun with
    | say hk hfragments =>
      exact stands_of_begun hreaches
        (.sayEnd hk hfragments (isKeyword_of_kind hkind))
  | equals hp hequals =>
    rw [hp] at hbegun
    cases hbegun with
    | sayEnd hk hfragments hclose =>
      refine stands_of_begun hreaches ?_
      rw [List.cons_append, List.append_assoc]
      exact .sayEquals hk hfragments hclose hequals
  | terminator hp hliteral =>
    rw [hp] at hbegun
    cases hbegun with
    | sayEquals hk hfragments hclose hequals =>
      rw [List.cons_append, List.append_assoc] at hreaches
      exact stands_of_idle
        (hreaches.simple (.sayEnd hk hfragments hclose hequals hliteral)) rfl
  | set hp hname =>
    rw [hp] at hbegun
    cases hbegun with
    | set hk => exact stands_of_idle (hreaches.simple (.set hk hname)) rfl
  | argument hp ho =>
    rw [hp] at hbegun
    cases hbegun with
    | call hname =>
      exact stands_of_idle (hreaches.simple (.callWith hname ho)) rfl

/-- **What a chain of moves keeps.** -/
theorem Stands.reads (h : Stands ts r (used ++ left))
    (hreads : Reads limit r used q) : Stands ts q left := by
  induction hreads with
  | nil r => exact h
  | cons hmove _ ih => exact ih (h.moves hmove)

/-- A `say` is complete when the tokens run out. -/
theorem Stands.ranOut (h : Stands ts r []) (ht : t.kind = .endOfInput)
    (hmoves : Moves limit r t q) : Stands ts q [] := by
  obtain ⟨fragments, after, hp, rfl⟩ := hmoves.eq_of_endOfInput ht
  obtain ⟨begun, hreaches, hbegun⟩ := h
  rw [hp] at hbegun
  cases hbegun with
  | say hk hfragments =>
    rw [List.append_nil] at hreaches
    exact stands_of_idle (hreaches.simple (.sayOut hk hfragments)) rfl

end Reader

end SayScript
