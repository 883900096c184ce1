import SayScript.Compile
import SayScript.Proofs.Limits
import SayScript.Proofs.Lines
import SayScript.Proofs.Relabelling

/-! # Printed programs

    A program is printed with one statement on each line, blocks with their
    `end` on a line of its own, and any number of blanks before a line:

        function greet who:
          say "hello, ", who end="!"
        end

    Not every program can be printed so: names have to be words that are no
    keywords, and a quoted text can hold neither a quote nor a line feed.
    The main result is that reading gives back every program that can be
    printed, unless a block is larger than the limit; then reading stops at
    the limit.

    The tokens of each printed line are given next to its text.  That the
    text has these tokens is a matter of scanning, and that they make up the
    statement is one of reading; the two meet in `exists_tokens`. -/

namespace SayScript

/-! ## The printer -/

/-- The operand as it is written. -/
def Operand.source : Operand → String
  | literal text => "\"" ++ text ++ "\""
  | var name => name

namespace Statement

/-- The fragments of a `say`, a blank before each and a comma after each but
    the last. -/
def fragmentsSource : List Operand → String
  | [] => ""
  | [o] => " " ++ o.source
  | o :: o' :: rest => " " ++ o.source ++ "," ++ fragmentsSource (o' :: rest)

/-- The end of a `say`, which does not name the default terminator. -/
def terminatorSource (terminator : String) : String :=
  if terminator = defaultTerminator then ""
  else " end=\"" ++ terminator ++ "\""

/-- The first line of a statement. -/
def headSource : Statement → String
  | say fragments terminator =>
    "say" ++ fragmentsSource fragments ++ terminatorSource terminator
  | set name => "set " ++ name
  | call callee none => callee
  | call callee (some argument) => callee ++ " " ++ argument.source
  | function name none _ => "function " ++ name ++ ":"
  | function name (some parameter) _ =>
    "function " ++ name ++ " " ++ parameter ++ ":"
  | start _ => "start:"

mutual

/-- All lines of a statement. -/
def sourceLines : Statement → List String
  | say fragments terminator => [headSource (say fragments terminator)]
  | set name => [headSource (set name)]
  | call callee argument => [headSource (call callee argument)]
  | function name parameter body =>
    headSource (function name parameter body) ::
      (sourceLinesOf body ++ ["end"])
  | start body => headSource (start body) :: (sourceLinesOf body ++ ["end"])

/-- The lines of a list of statements. -/
def sourceLinesOf : List Statement → List String
  | [] => []
  | s :: rest => s.sourceLines ++ sourceLinesOf rest

end

end Statement

/-- The printed program, with `indent i` blanks before the line of index
    `i`. -/
def Program.source (indent : Nat → Nat) (p : Program) : String :=
  Text.unlines (Text.indented indent (Statement.sourceLinesOf p.statements))

/-! ## Programs that can be printed -/

/-- Can the text be the name of something? -/
def IsName (name : String) : Prop :=
  Lexeme.isWord name.toList ∧ Keyword.ofSpelling? name = none

/-- Can the text stand between quotes? -/
def IsQuotable (text : String) : Prop :=
  '"' ∉ text.toList ∧ '\n' ∉ text.toList

instance (name : String) : Decidable (IsName name) :=
  inferInstanceAs (Decidable (_ ∧ _))

instance (text : String) : Decidable (IsQuotable text) :=
  inferInstanceAs (Decidable (_ ∧ _))

/-- Can the program be printed? -/
def Program.IsExpressible (p : Program) : Prop :=
  (∀ name ∈ p.names, IsName name) ∧ ∀ text ∈ p.texts, IsQuotable text

instance (p : Program) : Decidable p.IsExpressible :=
  inferInstanceAs (Decidable (_ ∧ _))

/-- Can the statement be printed, apart from its body? -/
def Statement.IsExpressible (s : Statement) : Prop :=
  (∀ name ∈ s.ownNames, IsName name) ∧ ∀ text ∈ s.ownTexts, IsQuotable text

theorem Program.IsExpressible.nodes {p : Program} (h : p.IsExpressible) :
    ∀ s ∈ p.nodes, s.IsExpressible := by
  intro s hs
  constructor
  · intro name hname
    exact h.1 name (List.mem_flatMap.mpr ⟨s, hs, hname⟩)
  · intro text htext
    exact h.2 text (List.mem_flatMap.mpr ⟨s, hs, htext⟩)

/-- Can the operand be printed? -/
def Operand.IsExpressible : Operand → Prop
  | literal text => IsQuotable text
  | var name => IsName name

theorem Operand.isExpressible_iff (o : Operand) : o.IsExpressible ↔
    (∀ name, o.name? = some name → IsName name) ∧
      ∀ text, o.literal? = some text → IsQuotable text := by
  cases o <;> simp [IsExpressible, name?, literal?, isVariable, text]

theorem Operand.forall_isExpressible_iff {os : List Operand} :
    (∀ o ∈ os, o.IsExpressible) ↔
      (∀ name ∈ os.filterMap Operand.name?, IsName name) ∧
        ∀ text ∈ os.filterMap Operand.literal?, IsQuotable text := by
  simp only [isExpressible_iff, List.mem_filterMap, forall_exists_index,
    and_imp]
  exact ⟨fun h => ⟨fun name o ho => (h o ho).1 name,
      fun text o ho => (h o ho).2 text⟩,
    fun h o ho => ⟨fun name => h.1 name o ho, fun text => h.2 text o ho⟩⟩

/-! ## The tokens of a printed line -/

/-- The token of an operand on line `n`. -/
def Operand.token (n : Nat) : Operand → Token
  | literal text => .ofText n text
  | var name => .ofName n name

namespace Statement

def fragmentTokens (n : Nat) : List Operand → List Token
  | [] => []
  | [o] => [o.token n]
  | o :: o' :: rest =>
    o.token n :: .ofMark n ',' :: fragmentTokens n (o' :: rest)

def terminatorTokens (n : Nat) (terminator : String) : List Token :=
  if terminator = defaultTerminator then []
  else [.ofKeyword n .close, .ofMark n '=', .ofText n terminator]

/-- The tokens of the first line of a statement, without its newline. -/
def headTokens (n : Nat) : Statement → List Token
  | say fragments terminator =>
    .ofKeyword n .say ::
      (fragmentTokens n fragments ++ terminatorTokens n terminator)
  | set name => [.ofKeyword n .set, .ofName n name]
  | call callee argument =>
    .ofName n callee :: argument.toList.map (Operand.token n)
  | function name parameter _ =>
    .ofKeyword n .function :: .ofName n name ::
      (parameter.toList.map (Token.ofName n) ++ [.ofMark n ':'])
  | start _ => [.ofKeyword n .start, .ofMark n ':']

end Statement

/-! ## Printed lines have these tokens -/

section Spelling

open Token Lexeme

variable {n : Nat} {cs : List Char} {ts : List Token}

theorem IsName.spells {name : String} (hname : IsName name)
    (hcs : EndsWord cs) (h : Spells n cs ts) :
    Spells n (name.toList ++ cs) (.ofName n name :: ts) :=
  h.name hname.1 hname.2 hcs

theorem IsName.ne_nil {name : String} (hname : IsName name) :
    name.toList ≠ [] := by
  intro hnil
  have := hname.1
  rw [hnil] at this
  cases this

theorem IsQuotable.spells {text : String} (htext : IsQuotable text)
    (h : Spells n cs ts) :
    Spells n ('"' :: (text.toList ++ '"' :: cs)) (.ofText n text :: ts) :=
  h.literal htext.1 htext.2

theorem Operand.spells_source {o : Operand} (ho : o.IsExpressible)
    (hcs : EndsWord cs) (h : Spells n cs ts) :
    Spells n (o.source.toList ++ cs) (o.token n :: ts) := by
  cases o with
  | literal text =>
    simpa [source, Operand.token] using IsQuotable.spells ho h
  | var name => exact IsName.spells ho hcs h

theorem Operand.source_ne_nil {o : Operand} (ho : o.IsExpressible) :
    o.source.toList ≠ [] := by
  cases o with
  | literal text => simp [source]
  | var name => exact IsName.ne_nil ho

namespace Statement

/-- A terminator that is written out. -/
theorem spells_end {terminator : String} (hterminator : IsQuotable terminator) :
    Spells n (" end=\"" ++ terminator ++ "\"").toList
        [.ofKeyword n .close, .ofMark n '=', .ofText n terminator] ∧
      EndsWord (" end=\"" ++ terminator ++ "\"").toList := by
  have htext : (" end=\"" ++ terminator ++ "\"").toList =
      ' ' :: (Keyword.close.spelling.toList ++
        '=' :: '"' :: (terminator.toList ++ ['"'])) := by
    simp [Keyword.spelling]
  rw [htext]
  refine ⟨.blank ?_ (by simp), endsWord_cons (by decide) _⟩
  apply Spells.keyword .close (endsWord_cons (by decide) _)
  apply Spells.mark (by decide)
  exact hterminator.spells (.nil n)

theorem spells_terminatorSource {terminator : String}
    (hterminator : IsQuotable terminator) :
    Spells n (terminatorSource terminator).toList
        (terminatorTokens n terminator) ∧
      EndsWord (terminatorSource terminator).toList := by
  unfold terminatorSource terminatorTokens
  split
  · exact ⟨.nil n, endsWord_nil⟩
  · exact spells_end hterminator

theorem endsWord_fragmentsSource (fragments : List Operand)
    (hcs : EndsWord cs) :
    EndsWord ((fragmentsSource fragments).toList ++ cs) := by
  cases fragments with
  | nil => simpa [fragmentsSource] using hcs
  | cons o rest =>
    cases rest with
    | nil => simpa [fragmentsSource] using endsWord_cons (by decide) _
    | cons o' rest => simpa [fragmentsSource] using endsWord_cons (by decide) _

theorem spells_fragmentsSource (hcs : EndsWord cs) (h : Spells n cs ts) :
    ∀ fragments : List Operand, (∀ o ∈ fragments, o.IsExpressible) →
      Spells n ((fragmentsSource fragments).toList ++ cs)
        (fragmentTokens n fragments ++ ts)
  | [], _ => by simpa [fragmentsSource, fragmentTokens] using h
  | [o], hfragments => by
    have ho := hfragments o List.mem_cons_self
    have := (Operand.spells_source ho hcs h).blank
      (by simp [Operand.source_ne_nil ho])
    simpa [fragmentsSource, fragmentTokens] using this
  | o :: o' :: rest, hfragments => by
    have ho := hfragments o List.mem_cons_self
    have hrest := spells_fragmentsSource hcs h (o' :: rest)
      (fun o ho => hfragments o (List.mem_cons_of_mem _ ho))
    have hcomma := hrest.mark (c := ',') (by decide)
    have := (Operand.spells_source ho (endsWord_cons (by decide) _)
      hcomma).blank (by simp)
    simpa [fragmentsSource, fragmentTokens] using this

theorem spells_headSource {s : Statement} (hs : s.IsExpressible) :
    Spells n s.headSource.toList (s.headTokens n) := by
  obtain ⟨hnames, htexts⟩ := hs
  cases s with
  | say fragments terminator =>
    simp only [ownNames, ownTexts, List.forall_mem_append,
      List.forall_mem_singleton] at hnames htexts
    have hfragments := Operand.forall_isExpressible_iff.mpr ⟨hnames, htexts.1⟩
    obtain ⟨hterminator, hends⟩ := spells_terminatorSource (n := n) htexts.2
    have hline := spells_fragmentsSource hends hterminator _ hfragments
    have := hline.keyword .say (endsWord_fragmentsSource _ hends)
    simpa [headSource, headTokens, Keyword.spelling] using this
  | set name =>
    have hname := hnames name List.mem_cons_self
    have := ((hname.spells endsWord_nil (.nil n)).blank
      (by simp [hname.ne_nil])).keyword .set (endsWord_cons (by decide) _)
    simpa [headSource, headTokens, Keyword.spelling] using this
  | call callee argument =>
    rw [ownNames, List.forall_mem_cons] at hnames
    have hcallee := hnames.1
    cases argument with
    | none =>
      have := hcallee.spells endsWord_nil (.nil n)
      simpa [headSource, headTokens] using this
    | some o =>
      have ho : o.IsExpressible :=
        Operand.forall_isExpressible_iff.mpr ⟨hnames.2, htexts⟩ o (by simp)
      have := hcallee.spells (endsWord_cons (by decide) _)
        ((Operand.spells_source ho endsWord_nil (.nil n)).blank
          (by simp [Operand.source_ne_nil ho]))
      simpa [headSource, headTokens] using this
  | function name parameter body =>
    rw [ownNames, List.forall_mem_cons] at hnames
    have hcolon := (Spells.nil n).mark (c := ':') (by decide)
    cases parameter with
    | none =>
      have := ((hnames.1.spells (endsWord_cons (by decide) _) hcolon).blank
        (by simp)).keyword .function (endsWord_cons (by decide) _)
      simpa [headSource, headTokens, Keyword.spelling] using this
    | some parameter =>
      have hparameter := hnames.2 parameter (by simp)
      have := hparameter.spells (endsWord_cons (by decide) _) hcolon
      have := (this.blank (by simp))
      have := ((hnames.1.spells (endsWord_cons (by decide) _) this).blank
        (by simp)).keyword .function (endsWord_cons (by decide) _)
      simpa [headSource, headTokens, Keyword.spelling] using this
  | start body =>
    have := ((Spells.nil n).mark (c := ':') (by decide)).keyword .start
      (endsWord_cons (by decide) _)
    simpa [headSource, headTokens, Keyword.spelling] using this

/-- A printed line starts with a word. -/
theorem head_headSource {s : Statement} (hs : s.IsExpressible) :
    ∃ c ∈ s.headSource.toList.head?, isWordStart c := by
  cases s with
  | call callee argument =>
    have hcallee := (hs.1 callee List.mem_cons_self).1
    obtain ⟨c, cs, hcs⟩ := List.exists_cons_of_ne_nil
      (hs.1 callee List.mem_cons_self).ne_nil
    rw [hcs, isWord, Bool.and_eq_true] at hcallee
    refine ⟨c, ?_, hcallee.1⟩
    cases argument <;> simp [headSource, hcs]
  | function name parameter body =>
    refine ⟨'f', ?_, by decide⟩
    cases parameter <;> simp [headSource]
  | say fragments terminator => exact ⟨'s', by simp [headSource], by decide⟩
  | set name => exact ⟨'s', by simp [headSource], by decide⟩
  | start body => exact ⟨'s', by simp [headSource], by decide⟩

end Statement

end Spelling

/-! ## These tokens make up the statement -/

namespace Reader

variable {limit n : Nat} {r : Reader} {s : Statement}

/-- May the current level hold `k` more items? -/
def HasRoom (limit : Nat) (r : Reader) (k : Nat) : Prop :=
  r.blocks = [] ∨ r.level.items + k ≤ limit

theorem HasRoom.isOverfull {k : Nat} (h : r.HasRoom limit k) :
    r.isOverfull limit = false := by
  rcases h with hblocks | hitems
  · simp [Reader.isOverfull, hblocks]
  · have : ¬ limit < r.level.items := by omega
    simp [Reader.isOverfull, this]

theorem HasRoom.complete {k : Nat} (h : r.HasRoom limit (k + 1))
    (s : Statement) : (r.complete s).HasRoom limit k := by
  rcases h with hblocks | hitems
  · exact .inl hblocks
  · refine .inr ?_
    rw [complete_level, Level.items_push]
    omega

/-- Completes statements one after the other. -/
def completeAll (r : Reader) (ss : List Statement) : Reader :=
  ss.foldl complete r

theorem completeAll_level_body (ss : List Statement) :
    (r.completeAll ss).level.body = r.level.body ++ ss := by
  induction ss generalizing r with
  | nil => simp [completeAll]
  | cons s ss ih => simpa [completeAll] using ih (r := r.complete s)

theorem completeAll_blocks (ss : List Statement) :
    (r.completeAll ss).blocks = r.blocks := by
  induction ss generalizing r with
  | nil => rfl
  | cons s ss ih => exact ih (r := r.complete s)

theorem completeAll_pending (hp : r.pending = .idle) (ss : List Statement) :
    (r.completeAll ss).pending = .idle := by
  induction ss generalizing r with
  | nil => exact hp
  | cons s ss ih => exact ih (r := r.complete s) rfl

theorem HasRoom.completeAll {ss : List Statement} {k : Nat}
    (h : r.HasRoom limit (k + ss.length)) :
    (r.completeAll ss).HasRoom limit k := by
  induction ss generalizing r with
  | nil => exact h
  | cons s ss ih => exact ih (h.complete s)

/-- Reading the body of a block and leaving it completes the block. -/
theorem leave_completeAll_enter (header : Header) (line : Nat)
    (body : List Statement) :
    ((r.enter header line).completeAll body).leave =
      r.complete (header.block body) := by
  have hblocks := completeAll_blocks (r := r.enter header line) body
  have hbody := completeAll_level_body (r := r.enter header line) body
  rw [enter_level, Level.body_empty, List.nil_append] at hbody
  rw [leave, hbody, hblocks]
  rfl

theorem operand?_token (o : Operand) : operand? (o.token n) = some o := by
  cases o <;> rfl

theorem reads_newline (hp : r.pending = .idle)
    (hroom : r.isOverfull limit = false) :
    Reads limit r [.newline n] r :=
  .single (.begins (.idle hp) hroom (.newline rfl))

theorem reads_fragments (fragments done : List Operand) (after : Bool) :
    ∃ after', Reads limit (r.await (.say done after))
      (Statement.fragmentTokens n fragments)
      (r.await (.say (fragments.reverse ++ done) after')) := by
  fun_induction Statement.fragmentTokens n fragments
    generalizing done after with
  | case1 => exact ⟨after, .nil _⟩
  | case2 o => exact ⟨true, .single (.fragment rfl (operand?_token o))⟩
  | case3 o o' rest ih =>
    obtain ⟨after', hrest⟩ := ih (o :: done) false
    refine ⟨after', .cons (.fragment rfl (operand?_token o)) ?_⟩
    refine .cons (.comma rfl rfl) ?_
    simpa using hrest

/-- A `say` up to its last fragment. -/
theorem reads_unended_say (hp : r.pending = .idle)
    (hroom : r.isOverfull limit = false) (fragments : List Operand) :
    ∃ after, Reads limit r
      (.ofKeyword n .say :: Statement.fragmentTokens n fragments)
      (r.await (.say fragments.reverse after)) := by
  obtain ⟨after, hfragments⟩ : ∃ after, Reads limit (r.await (.say [] false))
      (Statement.fragmentTokens n fragments)
      (r.await (.say (fragments.reverse ++ []) after)) :=
    reads_fragments fragments [] false
  rw [List.append_nil] at hfragments
  exact ⟨after, .cons (.begins (.idle hp) hroom (.say rfl)) hfragments⟩

/-- The line of a `say` with its terminator written out. -/
theorem reads_ended_say (hp : r.pending = .idle) (hroom : r.HasRoom limit 1)
    (fragments : List Operand) (terminator : String) :
    Reads limit r
      (.ofKeyword n .say :: (Statement.fragmentTokens n fragments ++
        [.ofKeyword n .close, .ofMark n '=', .ofText n terminator]) ++
          [.newline n])
      (r.complete (.say fragments terminator)) := by
  obtain ⟨after, hfragments⟩ :=
    reads_unended_say (n := n) hp hroom.isOverfull fragments
  have hend : Moves limit (r.await (.sayEquals fragments.reverse))
      (.ofText n terminator)
      (r.complete (.say fragments.reverse.reverse terminator)) :=
    .terminator rfl rfl
  rw [List.reverse_reverse] at hend
  rw [← List.cons_append, List.append_assoc]
  refine hfragments.append ?_
  refine .cons (.sayEnd rfl rfl) (.cons (.equals rfl rfl) (.cons hend ?_))
  exact reads_newline rfl (hroom.complete _).isOverfull

theorem reads_say (hp : r.pending = .idle) (hroom : r.HasRoom limit 1)
    (fragments : List Operand) (terminator : String) :
    Reads limit r
      ((Statement.say fragments terminator).headTokens n ++ [.newline n])
      (r.complete (.say fragments terminator)) := by
  rw [Statement.headTokens, Statement.terminatorTokens]
  by_cases hdefault : terminator = Statement.defaultTerminator
  · obtain ⟨after, hfragments⟩ :=
      reads_unended_say (n := n) hp hroom.isOverfull fragments
    have hend : Moves limit (r.await (.say fragments.reverse after))
        (.newline n) (r.complete
          (.say fragments.reverse.reverse Statement.defaultTerminator)) :=
      .lineEnd rfl (.inl rfl)
    rw [List.reverse_reverse] at hend
    rw [if_pos hdefault, List.append_nil, hdefault]
    exact hfragments.append (.single hend)
  · rw [if_neg hdefault]
    exact reads_ended_say hp hroom fragments terminator

/-- The line of a statement without a body. -/
theorem reads_line (hp : r.pending = .idle) (hroom : r.HasRoom limit 1)
    (hs : s.body? = none) :
    Reads limit r (s.headTokens n ++ [.newline n]) (r.complete s) := by
  have hafter := (hroom.complete s).isOverfull
  cases s with
  | say fragments terminator => exact reads_say hp hroom fragments terminator
  | set name =>
    refine .cons (.begins (.idle hp) hroom.isOverfull (.set rfl)) ?_
    exact .cons (.set rfl rfl) (reads_newline rfl hafter)
  | call callee argument =>
    refine .cons (.begins (.idle hp) hroom.isOverfull (.call rfl)) ?_
    cases argument with
    | none =>
      -- the call is complete only when the newline is seen
      exact .single (.begins (.call rfl rfl) hafter (.newline rfl))
    | some o =>
      exact .cons (.argument rfl (operand?_token o))
        (reads_newline rfl hafter)
  | function name parameter body => cases hs
  | start body => cases hs

/-- The first line of a block. -/
theorem reads_header (hp : r.pending = .idle)
    (hroom : r.isOverfull limit = false) (header : Header)
    (body : List Statement) :
    Reads limit r ((header.block body).headTokens n ++ [.newline n])
      (r.enter header n) := by
  have hentered : (r.enter header n).isOverfull limit = false := by
    simp [isOverfull]
  have hnewline := reads_newline (n := n) rfl hentered
  cases header with
  | function name parameter =>
    refine .cons (.begins (.idle hp) hroom (.function rfl)) ?_
    refine .cons (.functionName rfl rfl) ?_
    cases parameter with
    | none => exact .cons (.colon rfl rfl) hnewline
    | some parameter =>
      exact .cons (.parameter rfl rfl) (.cons (.colon rfl rfl) hnewline)
  | start =>
    refine .cons (.begins (.idle hp) hroom (.start rfl)) ?_
    exact .cons (.colon rfl rfl) hnewline

end Reader

/-! ## Printed statements are read back -/

/-- The lines, from line `n` on, have tokens that every reader with room for
    the statements completes them from. -/
def ReadsBack (n : Nat) (lines : List String) (ss : List Statement) : Prop :=
  ∃ ts, Token.Scans n lines ts ∧ ∀ limit (r : Reader), r.pending = .idle →
    r.HasRoom limit ss.length → Program.Fits limit ⟨ss⟩ →
    Reader.Reads limit r ts (r.completeAll ss)

namespace ReadsBack

variable {n : Nat} {lines lines' : List String} {s : Statement}
  {ss ss' : List Statement}

theorem nil (n : Nat) : ReadsBack n [] [] :=
  ⟨[], .nil n, fun _ r _ _ _ => .nil r⟩

theorem append (h : ReadsBack n lines ss)
    (h' : ReadsBack (n + lines.length) lines' ss') :
    ReadsBack n (lines ++ lines') (ss ++ ss') := by
  obtain ⟨ts, hscans, hreads⟩ := h
  obtain ⟨ts', hscans', hreads'⟩ := h'
  refine ⟨ts ++ ts', hscans.append hscans', ?_⟩
  intro limit r hp hroom hfits
  rw [Program.fits_append] at hfits
  rw [List.length_append, Nat.add_comm] at hroom
  -- room for both lists is room for the first, and then for the second
  have hfirst : r.HasRoom limit ss.length := by
    rcases hroom with hblocks | hitems
    · exact .inl hblocks
    · exact .inr (by omega)
  rw [Reader.completeAll, List.foldl_append]
  exact (hreads limit r hp hfirst hfits.1).append
    (hreads' limit _ (Reader.completeAll_pending hp ss) hroom.completeAll
      hfits.2)

theorem line (hs : s.IsExpressible) (hbody : s.body? = none) :
    ReadsBack n [s.headSource] [s] := by
  refine ⟨s.headTokens n ++ [.newline n],
    .cons (Statement.spells_headSource hs) (Statement.head_headSource hs)
      (.nil _), ?_⟩
  intro limit r hp hroom _
  exact Reader.reads_line hp hroom hbody

/-- The lines of a block, its body between the first line and the `end`. -/
theorem block (header : Header) {body : List Statement}
    (hs : (header.block body).IsExpressible)
    (h : ReadsBack (n + 1) lines body) :
    ReadsBack n ((header.block body).headSource :: (lines ++ ["end"]))
      [header.block body] := by
  obtain ⟨ts, hscans, hreads⟩ := h
  -- the number of the last line
  let m := n + 1 + lines.length
  have hclose : Token.Spells m "end".toList [.ofKeyword m .close] := by
    have := (Token.Spells.nil m).keyword .close Lexeme.endsWord_nil
    simpa [Keyword.spelling] using this
  refine ⟨(header.block body).headTokens n ++
      .newline n :: (ts ++ [.ofKeyword m .close, .newline m]), ?_, ?_⟩
  · exact .cons (Statement.spells_headSource hs)
      (Statement.head_headSource hs)
      (hscans.append (.cons hclose ⟨'e', rfl, by decide⟩ (.nil _)))
  · intro limit r hp hroom hfits
    rw [Program.fits_singleton] at hfits
    obtain ⟨hlength, hfits⟩ := hfits body (by cases header <;> rfl)
    have hhead := Reader.reads_header (n := n) hp hroom.isOverfull header body
    -- a block starts empty, so there is room for all of a body that fits
    have hinner : (r.enter header n).HasRoom limit (0 + body.length) :=
      .inr (by simpa using hlength)
    have hbody := hreads limit (r.enter header n) rfl
      (by simpa using hinner) hfits
    have hleave := Reader.leave_completeAll_enter (r := r) header n body
    have hlast : Reader.Reads limit ((r.enter header n).completeAll body)
        [.ofKeyword m .close, .newline m] (r.complete (header.block body)) := by
      have hidle := Reader.completeAll_pending (r := r.enter header n) rfl body
      refine .cons (.begins (.idle hidle) hinner.completeAll.isOverfull
        (.close rfl)) ?_
      rw [hleave]
      exact Reader.reads_newline rfl (hroom.complete _).isOverfull
    have := hhead.append (hbody.append hlast)
    rw [List.append_assoc, List.singleton_append] at this
    exact this

end ReadsBack

mutual

theorem Statement.readsBack_sourceLines : ∀ (s : Statement) (n : Nat),
    (∀ node ∈ s.nodes, node.IsExpressible) → ReadsBack n s.sourceLines [s]
  | .say _ _, _, h => .line (h _ (mem_nodes_self _)) rfl
  | .set _, _, h => .line (h _ (mem_nodes_self _)) rfl
  | .call _ _, _, h => .line (h _ (mem_nodes_self _)) rfl
  | .function name parameter body, n, h =>
    .block (.function name parameter) (h _ (mem_nodes_self _))
      (Statement.readsBack_sourceLinesOf body (n + 1)
        fun node hnode => h node (List.mem_cons_of_mem _ hnode))
  | .start body, n, h =>
    .block .start (h _ (mem_nodes_self _))
      (Statement.readsBack_sourceLinesOf body (n + 1)
        fun node hnode => h node (List.mem_cons_of_mem _ hnode))

theorem Statement.readsBack_sourceLinesOf :
    ∀ (ss : List Statement) (n : Nat),
      (∀ node ∈ nodesOf ss, node.IsExpressible) →
      ReadsBack n (sourceLinesOf ss) ss
  | [], n, _ => .nil n
  | s :: rest, n, h =>
    (Statement.readsBack_sourceLines s n
      fun node hnode => h node (List.mem_append_left _ hnode)).append
    (Statement.readsBack_sourceLinesOf rest _
      fun node hnode => h node (List.mem_append_right _ hnode))

end

namespace Program

/-- A printed program has tokens that are read back under every limit that
    its blocks fit. -/
theorem exists_tokens {p : Program} (h : p.IsExpressible)
    (indent : Nat → Nat) :
    ∃ ts, Token.ofScript (p.source indent) = .ok ts ∧
      ∀ limit, p.Fits limit → ofTokens limit ts = .ok p := by
  obtain ⟨ts, hscans, hreads⟩ :=
    Statement.readsBack_sourceLinesOf p.statements 1 h.nodes
  refine ⟨_, Token.ofScript_of_scans hscans indent, ?_⟩
  intro limit hfits
  have hrun := hreads limit .initial rfl (.inl rfl) hfits
  have hbody := Reader.completeAll_level_body (r := .initial) p.statements
  have hblocks := Reader.completeAll_blocks (r := .initial) p.statements
  rw [ofTokens_mapLine]
  -- line numbers play no part in a program
  suffices hread : ofTokens limit (ts ++ [_]) = .ok p by
    rw [hread]
    rfl
  rw [Reader.ofTokens_eq_result, Reader.result_append hrun,
    Reader.result_endOfInput
      (Reader.completeAll_pending rfl p.statements) rfl,
    Reader.conclude, Reader.isOverfull, hblocks, hbody]
  rfl

theorem ofScript_source_of_fits {p : Program} (h : p.IsExpressible)
    {limit : Nat} (hfits : p.Fits limit) (indent : Nat → Nat) :
    ofScript limit (p.source indent) = .ok p := by
  obtain ⟨ts, hts, hread⟩ := exists_tokens h indent
  rw [ofScript_of_tokens hts, hread limit hfits]
  rfl

/-- **Round trip**: printing a program and reading the text gives the program
    back if its blocks fit the limit, at every depth.  Otherwise reading
    stops at the limit. -/
theorem ofScript_source {p : Program} (h : p.IsExpressible) (limit : Nat)
    (indent : Nat → Nat) :
    (p.Fits limit → ofScript limit (p.source indent) = .ok p) ∧
      (¬ p.Fits limit → ∃ line, ofScript limit (p.source indent) =
        .error (.read (.blockLimit limit line))) := by
  refine ⟨fun hfits => ofScript_source_of_fits h hfits indent, ?_⟩
  intro hlarge
  obtain ⟨ts, hts, hread⟩ := exists_tokens h indent
  rw [ofScript_of_tokens hts]
  -- under a larger limit the program is read, so that only the limit can
  -- make a difference; and it does, as what is read fits
  obtain ⟨larger, hle, hfits⟩ := p.exists_fits limit
  rcases Reader.run_le (r := .initial) hle 0 with hsame | ⟨line, hline⟩
  · have hok : ofTokens limit ts = .ok p := by
      rw [← hread larger hfits]
      exact congrArg Reader.Outcome.result hsame
    exact absurd (Reader.fits_of_result (.initial limit) hok) hlarge
  · refine ⟨line, ?_⟩
    rw [show ofTokens limit ts = .error (.blockLimit limit line) from hline]
    rfl

/-- A program with a block of three statements inside another block, quoted
    text that looks like more, and blanks before some lines. -/
theorem ofScript_source_nested :
    let p : Program := ⟨[
      .function "greet" (some "who")
        [.start [.set "_n1", .say [] "\\n", .call "greet" none],
          .say [.literal "# not, a comment: end", .var "who"] ""],
      .start [.call "greet" (some (.literal " \r")), .start []]]⟩
    let indent := fun i => i % 3
    p.IsExpressible ∧ p.Fits 3 ∧ ofScript 3 (p.source indent) = .ok p ∧
      ¬ p.Fits 2 ∧ ∃ line, ofScript 2 (p.source indent) =
        .error (.read (.blockLimit 2 line)) := by
  intro p indent
  have h : p.IsExpressible := by decide
  have hfits : p.Fits 3 := by decide
  have hlarge : ¬ p.Fits 2 := by decide
  exact ⟨h, hfits, (ofScript_source h 3 indent).1 hfits, hlarge,
    (ofScript_source h 2 indent).2 hlarge⟩

end Program

end SayScript
