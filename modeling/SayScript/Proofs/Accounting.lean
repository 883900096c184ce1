import SayScript.Proofs.Nodes
import SayScript.Proofs.Runs

/-! # Where the parts of a program come from

    Reading loses, invents, repeats and reorders no name and no statement.
    To see this, tokens and programs are both cut down to their atoms: the
    names, the literals, and the keywords that statements start with.  A
    reader has atoms too, those of everything read so far.

    A move appends the atom of its token to the atoms of the reader.  There
    is one exception: literals that are skipped between statements or name a
    terminator leave no operand.  So the atoms of a program are those of the
    tokens used, in the same order, less some literals. -/

namespace SayScript

/-- The keywords that statements start with. -/
def Keyword.starters : List Keyword :=
  [.function, .start, .say, .set]

/-- A part of a program that comes from one token. -/
inductive Atom where
  | keyword (k : Keyword)
  | name (text : String)
  | literal (text : String)
  deriving DecidableEq, Repr

namespace Atom

/-- The text of a name. -/
def name? : Atom → Option String
  | name text => some text
  | keyword _ | literal _ => none

/-- The text of a literal. -/
def literal? : Atom → Option String
  | literal text => some text
  | keyword _ | name _ => none

/-- Is the atom a literal? -/
def isLiteral : Atom → Bool
  | literal _ => true
  | keyword _ | name _ => false

end Atom

namespace Token

/-- The text of an identifier. -/
def name? (t : Token) : Option String :=
  if t.kind = .identifier then some t.text else none

/-- The text of a literal. -/
def literal? (t : Token) : Option String :=
  if t.kind = .literal then some t.text else none

/-- The part of a program that the token can be. -/
def atom? (t : Token) : Option Atom :=
  match t.kind with
  | .identifier => some (.name t.text)
  | .literal => some (.literal t.text)
  | .keyword k => if k ∈ Keyword.starters then some (.keyword k) else none
  | .symbol | .newline | .endOfInput => none

end Token

/-! ## Atoms of programs -/

/-- The atom of an operand. -/
def Operand.atom : Operand → Atom
  | literal text => .literal text
  | var name => .name name

namespace Statement

/-- The atoms of the statement itself. -/
def ownAtoms : Statement → List Atom
  | say fragments _ => .keyword .say :: fragments.map Operand.atom
  | set name => [.keyword .set, .name name]
  | call callee argument => .name callee :: argument.toList.map Operand.atom
  | function name parameter _ =>
    .keyword .function :: .name name :: parameter.toList.map .name
  | start _ => [.keyword .start]

/-- The atoms of a list of statements, at all depths. -/
def atomsOf (ss : List Statement) : List Atom :=
  (nodesOf ss).flatMap ownAtoms

@[simp] theorem atomsOf_nil : atomsOf [] = [] := rfl

@[simp] theorem atomsOf_append (ss rest : List Statement) :
    atomsOf (ss ++ rest) = atomsOf ss ++ atomsOf rest := by
  simp [atomsOf]

theorem atomsOf_singleton (s : Statement) :
    atomsOf [s] = s.ownAtoms ++ atomsOf (s.body?.getD []) := by
  simp [atomsOf, nodes_eq]

end Statement

/-- The atoms that the start of a block gives. -/
def Header.atoms (h : Header) : List Atom :=
  (h.block []).ownAtoms

@[simp] theorem Statement.atomsOf_block (h : Header) (body : List Statement) :
    atomsOf [h.block body] = h.atoms ++ atomsOf body := by
  rw [atomsOf_singleton]
  cases h <;> rfl

/-! ## Atoms of readers -/

/-- The atoms of the statement in the middle of which a reader is. -/
def Pending.atoms : Pending → List Atom
  | idle => []
  | function _ => [.keyword .function]
  | functionName _ name => [.keyword .function, .name name]
  | functionParameter _ name parameter =>
    [.keyword .function, .name name, .name parameter]
  | start _ => [.keyword .start]
  | say fragments _ | sayEnd fragments | sayEquals fragments =>
    .keyword .say :: fragments.reverse.map Operand.atom
  | set => [.keyword .set]
  | call callee => [.name callee]

/-- The atoms up to the start of the block's body. -/
def OpenBlock.atoms (b : OpenBlock) : List Atom :=
  Statement.atomsOf b.outer.body ++ b.header.atoms

namespace Reader

/-- The atoms before the statement the reader is in the middle of. -/
def doneAtoms (r : Reader) : List Atom :=
  r.blocks.reverse.flatMap OpenBlock.atoms ++ Statement.atomsOf r.level.body

/-- The atoms of everything read so far. -/
def atoms (r : Reader) : List Atom :=
  r.doneAtoms ++ r.pending.atoms

variable {limit : Nat} {r q : Reader} {t : Token} {ts : List Token}

@[simp] theorem doneAtoms_await (p : Pending) :
    (r.await p).doneAtoms = r.doneAtoms := rfl

@[simp] theorem doneAtoms_skip : r.skip.doneAtoms = r.doneAtoms := rfl

@[simp] theorem doneAtoms_complete (s : Statement) :
    (r.complete s).doneAtoms = r.doneAtoms ++ Statement.atomsOf [s] := by
  simp [doneAtoms]

@[simp] theorem doneAtoms_enter (header : Header) (line : Nat) :
    (r.enter header line).doneAtoms = r.doneAtoms ++ header.atoms := by
  simp [doneAtoms, enter, OpenBlock.atoms]

/-- Closing a block moves its atoms to the level around it. -/
@[simp] theorem doneAtoms_leave : r.leave.doneAtoms = r.doneAtoms := by
  unfold leave
  split
  · rfl
  · rename_i b outer hblocks
    simp [doneAtoms, hblocks, OpenBlock.atoms]

theorem atoms_of_idle (hp : r.pending = .idle) : r.atoms = r.doneAtoms := by
  simp [atoms, hp, Pending.atoms]

/-- A statement that is no block adds just its own atoms. -/
theorem atoms_complete {s : Statement} (hs : s.body? = none) :
    (r.complete s).atoms = r.doneAtoms ++ s.ownAtoms := by
  rw [atoms_of_idle rfl, doneAtoms_complete, Statement.atomsOf_singleton, hs]
  simp

theorem Settles.atoms (h : Settles r t q) : q.atoms = r.atoms := by
  cases h with
  | idle _ => rfl
  | call hp _ =>
    rw [atoms_complete rfl, Reader.atoms, hp]
    rfl

/-! ## What a move does to the atoms -/

theorem atom?_of_operand? {o : Operand} (h : operand? t = some o) :
    t.atom? = some o.atom := by
  rcases kind_of_operand? h with ⟨hkind, rfl⟩ | ⟨hkind, rfl⟩ <;>
    simp [Token.atom?, hkind, Operand.atom]

theorem atom?_of_isSymbol {c : Char} (h : t.isSymbol c) : t.atom? = none := by
  simp [Token.atom?, kind_of_isSymbol h]

/-- A stray token has no atom, or it is a literal. -/
theorem atom?_of_isStray (h : t.isStray) :
    t.atom? = none ∨ t.kind = .literal := by
  unfold Token.isStray at h
  split at h
  · rename_i k hkind
    left
    cases k <;> simp_all [Token.atom?, Keyword.isReserved, Keyword.starters]
  · exact .inr ‹_›
  · left
    simp_all [Token.atom?]
  all_goals cases h

theorem atoms_of_begins (hp : r.pending = .idle) (h : Begins r t q) :
    q.atoms = r.atoms ++ t.atom?.toList ∨
      (t.kind = .literal ∧ q.atoms = r.atoms) := by
  cases h with
  | newline hkind => left; simp [Token.atom?, hkind]
  | call hkind =>
    left; simp [atoms, hp, Pending.atoms, Token.atom?, hkind]
  | function hkind =>
    left
    simp [atoms, hp, Pending.atoms, Token.atom?, hkind, Keyword.starters]
  | start hkind =>
    left
    simp [atoms, hp, Pending.atoms, Token.atom?, hkind, Keyword.starters]
  | say hkind =>
    left
    simp [atoms, hp, Pending.atoms, Token.atom?, hkind, Keyword.starters]
  | set hkind =>
    left
    simp [atoms, hp, Pending.atoms, Token.atom?, hkind, Keyword.starters]
  | close hkind =>
    left
    rw [atoms_of_idle (leave_pending hp), doneAtoms_leave, atoms_of_idle hp]
    simp [Token.atom?, hkind, Keyword.starters]
  | stray hstray =>
    have hkeep : r.skip.atoms = r.atoms := rfl
    rcases atom?_of_isStray hstray with hnone | hliteral
    · left; simp [hkeep, hnone]
    · exact .inr ⟨hliteral, hkeep⟩

/-- A move appends the atom of its token, or drops a literal. -/
theorem atoms_of_moves (h : Moves limit r t q) :
    q.atoms = r.atoms ++ t.atom?.toList ∨
      (t.kind = .literal ∧ q.atoms = r.atoms) := by
  cases h with
  | begins hsettles _ hbegins =>
    rw [← hsettles.atoms]
    exact atoms_of_begins hsettles.pending hbegins
  | functionName hp hkind =>
    left; simp [atoms, hp, Pending.atoms, Token.atom?, hkind]
  | parameter hp hkind =>
    left; simp [atoms, hp, Pending.atoms, Token.atom?, hkind]
  | @colon header line hp hcolon =>
    -- the header has the atoms that were pending
    have hheader : header.atoms = r.pending.atoms := by
      unfold Pending.header? at hp
      split at hp <;> cases hp <;> simp [Pending.atoms, *] <;> rfl
    have hidle : (r.enter header line).pending = .idle := rfl
    left
    rw [atoms_of_idle hidle, doneAtoms_enter, hheader, atom?_of_isSymbol hcolon]
    simp [atoms]
  | fragment hp ho =>
    left; simp [atoms, hp, Pending.atoms, atom?_of_operand? ho]
  | comma hp hcomma =>
    left; simp [atoms, hp, Pending.atoms, atom?_of_isSymbol hcomma]
  | lineEnd hp hkind =>
    have hnone : t.atom? = none := by
      rcases hkind with hkind | hkind <;> simp [Token.atom?, hkind]
    left
    rw [atoms_complete rfl, atoms, hp, hnone]
    simp [Pending.atoms, Statement.ownAtoms]
  | sayEnd hp hkind =>
    left
    simp [atoms, hp, Pending.atoms, Token.atom?, hkind, Keyword.starters]
  | equals hp hequals =>
    left; simp [atoms, hp, Pending.atoms, atom?_of_isSymbol hequals]
  | terminator hp hkind =>
    right
    refine ⟨hkind, ?_⟩
    rw [atoms_complete rfl, atoms, hp]
    rfl
  | set hp hkind =>
    left
    rw [atoms_complete rfl, atoms, hp]
    simp [Pending.atoms, Token.atom?, hkind, Statement.ownAtoms]
  | argument hp ho =>
    left
    rw [atoms_complete rfl, atoms, hp, atom?_of_operand? ho]
    simp [Pending.atoms, Statement.ownAtoms]

end Reader

/-! ## What a run does to the atoms -/

/-- The atoms are those of the tokens in their order, less some literals. -/
structure Kept (ts : List Token) (atoms : List Atom) : Prop where
  sublist : atoms.Sublist (ts.filterMap Token.atom?)
  others : atoms.filter (!Atom.isLiteral ·) =
    (ts.filterMap Token.atom?).filter (!Atom.isLiteral ·)

namespace Kept

variable {t : Token} {ts : List Token} {atoms : List Atom}

theorem nil : Kept [] [] :=
  ⟨List.Sublist.refl [], rfl⟩

theorem keep (t : Token) (h : Kept ts atoms) :
    Kept (t :: ts) (t.atom?.toList ++ atoms) := by
  cases ht : t.atom? with
  | none =>
    have hskip : (t :: ts).filterMap Token.atom? = ts.filterMap Token.atom? :=
      List.filterMap_cons_none ht
    constructor
    · rw [hskip]; exact h.sublist
    · rw [hskip]; exact h.others
  | some a =>
    have htake : (t :: ts).filterMap Token.atom? =
        a :: ts.filterMap Token.atom? := List.filterMap_cons_some ht
    constructor
    · rw [htake]; exact h.sublist.cons_cons a
    · rw [htake]
      simp [List.filter_cons, h.others]

theorem drop (ht : t.kind = .literal) (h : Kept ts atoms) :
    Kept (t :: ts) atoms := by
  have hatom : t.atom? = some (.literal t.text) := by simp [Token.atom?, ht]
  have htake : (t :: ts).filterMap Token.atom? =
      .literal t.text :: ts.filterMap Token.atom? :=
    List.filterMap_cons_some hatom
  constructor
  · rw [htake]; exact h.sublist.cons _
  · rw [htake, h.others]
    rfl

/-! ### Three views of kept atoms -/

theorem filterMap_view {view : Atom → Option String}
    {tokenView : Token → Option String}
    (hkeyword : ∀ k, view (.keyword k) = none)
    (htoken : ∀ t, tokenView t = match t.kind with
      | .identifier => view (.name t.text)
      | .literal => view (.literal t.text)
      | _ => none) :
    ts.filterMap tokenView = (ts.filterMap Token.atom?).filterMap view := by
  rw [List.filterMap_filterMap]
  congr 1
  funext t
  rw [htoken]
  obtain ⟨kind, text, line⟩ := t
  cases kind with
  | keyword k =>
    simp only [Token.atom?]
    split <;> simp [hkeyword]
  | _ => rfl

theorem names_eq (h : Kept ts atoms) :
    ts.filterMap Token.name? = atoms.filterMap Atom.name? := by
  have hview : ∀ as : List Atom, as.filterMap Atom.name? =
      (as.filter (!Atom.isLiteral ·)).filterMap Atom.name? := by
    intro as
    rw [List.filterMap_filter]
    congr 1
    funext a
    cases a <;> rfl
  have htoken : ts.filterMap Token.name? =
      (ts.filterMap Token.atom?).filterMap Atom.name? := by
    apply filterMap_view (fun _ => rfl)
    rintro ⟨kind, text, line⟩
    cases kind <;> rfl
  rw [htoken, hview, ← h.others, ← hview]

theorem countP_isKeyword {k : Keyword} (hk : k ∈ Keyword.starters)
    (h : Kept ts atoms) :
    ts.countP (·.isKeyword k) = atoms.count (.keyword k) := by
  have hview : ∀ as : List Atom, as.count (.keyword k) =
      (as.filter (!Atom.isLiteral ·)).count (.keyword k) := by
    intro as
    rw [List.count_filter]
    rfl
  have htoken : ∀ t : Token,
      t.isKeyword k = true ↔ t.atom? = some (.keyword k) := by
    rintro ⟨kind, text, line⟩
    cases kind with
    | keyword other =>
      simp only [Token.isKeyword, Token.atom?, decide_eq_true_eq]
      by_cases hother : other = k
      · simp [hother, hk]
      · simp only [Token.Kind.keyword.injEq, hother, false_iff]
        split <;> simp [hother]
    | _ => simp [Token.isKeyword, Token.atom?]
  have hcount : ts.countP (·.isKeyword k) =
      (ts.filterMap Token.atom?).count (.keyword k) := by
    rw [List.count, List.countP_filterMap]
    congr 1
    funext t
    rw [Bool.eq_iff_iff, htoken t]
    cases t.atom? <;> simp
  rw [hcount, hview, ← h.others, ← hview]

theorem literals_sublist (h : Kept ts atoms) :
    (atoms.filterMap Atom.literal?).Sublist (ts.filterMap Token.literal?) := by
  have htoken : ts.filterMap Token.literal? =
      (ts.filterMap Token.atom?).filterMap Atom.literal? := by
    apply filterMap_view (fun _ => rfl)
    rintro ⟨kind, text, line⟩
    cases kind <;> rfl
  rw [htoken]
  exact h.sublist.filterMap _

end Kept

namespace Reader

variable {limit : Nat} {r q : Reader} {ts : List Token}

/-- A chain of moves appends atoms that are kept from its tokens. -/
theorem kept_of_reads (h : Reads limit r ts q) :
    ∃ kept, q.atoms = r.atoms ++ kept ∧ Kept ts kept := by
  induction h with
  | nil r => exact ⟨[], by simp, .nil⟩
  | @cons r q q' t ts hmove _ ih =>
    obtain ⟨kept, hatoms, hkept⟩ := ih
    rcases atoms_of_moves hmove with htake | ⟨hkind, hdrop⟩
    · exact ⟨t.atom?.toList ++ kept, by rw [hatoms, htake]; simp,
        hkept.keep t⟩
    · exact ⟨kept, by rw [hatoms, hdrop], hkept.drop hkind⟩

theorem Ends.atoms (h : Ends limit r q) : q.atoms = r.atoms := by
  obtain ⟨t, hkind, hsettles | hmoves⟩ := h
  · exact hsettles.atoms
  · rcases atoms_of_moves hmoves with htake | ⟨hliteral, -⟩
    · simpa [Token.atom?, hkind] using htake
    · rw [hkind] at hliteral
      cases hliteral

/-- The atoms of a program that was read are kept from the tokens used. -/
theorem kept_of_run {lastLine advances : Nat} {p : Program}
    (h : (initial.run limit lastLine advances ts).result = .ok p) :
    ∃ used, ts = used ++ (initial.run limit lastLine advances ts).rest ∧
      Kept used (Statement.atomsOf p.statements) := by
  obtain ⟨used, q, q', hts, hreads, hends, hblocks, rfl⟩ := run_eq_ok h
  obtain ⟨kept, hatoms, hkept⟩ := kept_of_reads hreads
  have hinitial : initial.atoms = [] := rfl
  have hfinal : q'.atoms = Statement.atomsOf q'.level.body := by
    rw [atoms_of_idle hends.pending, doneAtoms, hblocks]
    rfl
  refine ⟨used, hts, ?_⟩
  rw [hends.atoms, hatoms, hinitial] at hfinal
  rw [← hfinal]
  exact hkept

end Reader

/-! ## Atoms of programs, seen from their nodes -/

namespace Statement

theorem filterMap_name?_ownAtoms (s : Statement) :
    s.ownAtoms.filterMap Atom.name? = s.ownNames := by
  have hoperands : Atom.name? ∘ Operand.atom = Operand.name? := by
    funext o
    cases o <;> rfl
  cases s with
  | function name parameter body => cases parameter <;> rfl
  | _ =>
    simp [ownAtoms, ownNames, Atom.name?, List.filterMap_cons, hoperands]

theorem filterMap_literal?_ownAtoms (s : Statement) :
    s.ownAtoms.filterMap Atom.literal? =
      s.ownOperands.filterMap Operand.literal? := by
  have hoperands : Atom.literal? ∘ Operand.atom = Operand.literal? := by
    funext o
    cases o <;> rfl
  cases s with
  | function name parameter body => cases parameter <;> rfl
  | _ =>
    simp [ownAtoms, ownOperands, Atom.literal?, List.filterMap_cons, hoperands]

theorem count_keyword_ownAtoms (k : Keyword) (s : Statement) :
    s.ownAtoms.count (.keyword k) = if s.keyword? = some k then 1 else 0 := by
  have hoperands : ∀ os : List Operand,
      (os.map Operand.atom).count (.keyword k) = 0 := by
    intro os
    rw [List.count_eq_zero]
    intro hmem
    obtain ⟨o, -, ho⟩ := List.mem_map.mp hmem
    cases o <;> cases ho
  cases s with
  | say fragments terminator =>
    simp [ownAtoms, keyword?, List.count_cons, hoperands]
  | set name => simp [ownAtoms, keyword?, List.count_cons]
  | call callee argument => simp [ownAtoms, keyword?, hoperands]
  | function name parameter body =>
    cases parameter <;> simp [ownAtoms, keyword?, List.count_cons]
  | start body => simp [ownAtoms, keyword?, List.count_cons]

theorem count_keyword_flatMap_ownAtoms (k : Keyword) (ss : List Statement) :
    (ss.flatMap ownAtoms).count (.keyword k) =
      ss.countP fun s => s.keyword? = some k := by
  induction ss with
  | nil => rfl
  | cons s ss ih =>
    rw [List.flatMap_cons, List.count_append, ih, count_keyword_ownAtoms,
      List.countP_cons, Nat.add_comm]
    simp

end Statement

theorem Program.names_of_kept {used : List Token} {p : Program}
    (h : Kept used (Statement.atomsOf p.statements)) :
    used.filterMap Token.name? = p.names := by
  rw [h.names_eq, Statement.atomsOf, List.filterMap_flatMap]
  exact congrArg (p.nodes.flatMap ·)
    (funext Statement.filterMap_name?_ownAtoms)

/-- **No name is lost, invented, repeated or reordered by reading.**  When a
    program is read, the identifiers among the tokens used are its names in
    the order of the script, its statements of each kind are as many as the
    keywords they start with, and its literals are some of the literals
    used, in the same order. -/
theorem Program.parts_of_read (limit : Nat) (ts : List Token) (p : Program)
    (h : (Program.read limit ts).result = .ok p) :
    ts = (Program.read limit ts).used ts ++ (Program.read limit ts).rest ∧
    ((Program.read limit ts).used ts).filterMap Token.name? = p.names ∧
    (∀ k ∈ Keyword.starters,
      ((Program.read limit ts).used ts).countP (·.isKeyword k) =
        p.nodes.countP fun s => s.keyword? = some k) ∧
    (p.operands.filterMap Operand.literal?).Sublist
      (((Program.read limit ts).used ts).filterMap Token.literal?) := by
  obtain ⟨used, hts, hkept⟩ := Reader.kept_of_run h
  have hused : (Program.read limit ts).used ts = used := Reader.used_eq hts
  rw [hused]
  refine ⟨hts, Program.names_of_kept hkept, ?_, ?_⟩
  · intro k hk
    rw [hkept.countP_isKeyword hk]
    exact Statement.count_keyword_flatMap_ownAtoms k p.nodes
  · have hliterals : p.operands.filterMap Operand.literal? =
        (Statement.atomsOf p.statements).filterMap Atom.literal? := by
      rw [Program.operands, Statement.operandsOf_eq, Statement.atomsOf,
        List.filterMap_flatMap, List.filterMap_flatMap]
      exact congrArg ((Statement.nodesOf p.statements).flatMap ·)
        (funext fun s => (Statement.filterMap_literal?_ownAtoms s).symm)
    rw [hliterals]
    exact hkept.literals_sublist

/-- A function with a parameter, a terminator and a skipped literal in it,
    and tokens left over after the end of the input. -/
theorem Program.parts_of_read_function :
    let ts : List Token :=
      [⟨.keyword .function, "function", 1⟩, ⟨.identifier, "greet", 1⟩,
       ⟨.identifier, "who", 1⟩, ⟨.symbol, ":", 1⟩, ⟨.newline, "\n", 1⟩,
       ⟨.keyword .say, "say", 2⟩, ⟨.literal, "hi ", 2⟩, ⟨.symbol, ",", 2⟩,
       ⟨.identifier, "who", 2⟩, ⟨.keyword .close, "end", 2⟩,
       ⟨.symbol, "=", 2⟩, ⟨.literal, "!", 2⟩, ⟨.newline, "\n", 2⟩,
       ⟨.literal, "stray", 3⟩, ⟨.newline, "\n", 3⟩,
       ⟨.keyword .close, "end", 4⟩, ⟨.endOfInput, "", 4⟩,
       ⟨.identifier, "late", 5⟩]
    let p : Program := ⟨[.function "greet" (some "who")
      [.say [.literal "hi ", .var "who"] "!"]]⟩
    (Program.read 2 ts).result = .ok p ∧
    (Program.read 2 ts).used ts = ts.take 16 ∧
    (ts.take 16).filterMap Token.name? = p.names ∧
    ["hi "].Sublist ((ts.take 16).filterMap Token.literal?) := by
  intro ts p
  have hread : (Program.read 2 ts).result = .ok p := rfl
  obtain ⟨-, hnames, -, hliterals⟩ := Program.parts_of_read 2 ts p hread
  exact ⟨hread, rfl, hnames, hliterals⟩

end SayScript
