import SayScript.Proofs.Accounting
import SayScript.Proofs.Printing
import SayScript.Proofs.TargetText

/-! # What the C++ text says about the program

    Lowering keeps the functions and the start blocks at top level, each in
    their order, and nothing else at top level.  What it keeps it keeps
    whole: `raise` takes a C++ statement back to the statement it comes
    from.  Together with the fact that the text of a source file determines
    the file, this says exactly how much of a program can be seen in its
    text.

    The text is only unambiguous if all names are words.  In a program that
    was read from a script they always are. -/

namespace SayScript

/-! ## The definitions of a source file -/

namespace Target.Module

theorem foldl_addFunction (m : Module) (fs : List Function) :
    fs.foldl addFunction m = { m with functions := m.functions ++ fs } := by
  induction fs generalizing m with
  | nil => simp
  | cons f fs ih => simp [ih, addFunction]

theorem foldl_addEntryPoint (m : Module) (es : List EntryPoint) :
    es.foldl addEntryPoint m =
      { m with entryPoints := m.entryPoints ++ es } := by
  induction es generalizing m with
  | nil => simp
  | cons e es ih => simp [ih, addEntryPoint]

end Target.Module

/-- A statement that is lowered is of the kind that is selected. -/
theorem Statement.filterMap_filter_of_isSome {α : Type}
    {lower? : Statement → Option α} {kind : Statement → Bool}
    (hkind : ∀ s, (lower? s).isSome = kind s) (ss : List Statement) :
    (ss.filter kind).filterMap lower? = ss.filterMap lower? := by
  rw [List.filterMap_filter]
  apply congrArg (List.filterMap · ss)
  funext s
  cases hs : lower? s <;> simp [← hkind, hs]

namespace Program

/-- The source file is made from the functions and the start blocks alone. -/
theorem lower_eq (p : Program) : p.lower =
    { functions := p.functions.filterMap Statement.lowerFunction?
      entryPoints := p.starts.filterMap Statement.lowerStart? } := by
  rw [lower, Target.Module.foldl_addFunction,
    Target.Module.foldl_addEntryPoint]
  rfl

theorem functions_lower (p : Program) :
    p.lower.functions = p.statements.filterMap Statement.lowerFunction? := by
  rw [lower_eq]
  exact Statement.filterMap_filter_of_isSome (by intro s; cases s <;> rfl) _

theorem entryPoints_lower (p : Program) :
    p.lower.entryPoints = p.statements.filterMap Statement.lowerStart? := by
  rw [lower_eq]
  exact Statement.filterMap_filter_of_isSome (by intro s; cases s <;> rfl) _

end Program

/-! ## Back from the C++ model -/

namespace Target

/-- The operand that is lowered to the value. -/
def Value.raise : Value → Operand
  | text content => .literal content
  | name n => .var n

/-- The `say` that is lowered to a statement that prints the values. -/
def raisePrint (values : List Value) : Bool → SayScript.Statement
  | true =>
    .say (values.map Value.raise) SayScript.Statement.defaultTerminator
  | false =>
    .say (values.dropLast.map Value.raise)
      ((values.getLast?.map (·.raise.text)).getD "")

namespace Statement

mutual

/-- The statement that is lowered to the C++ statement. -/
def raise : Statement → SayScript.Statement
  | print values lineEnd => raisePrint values lineEnd
  | declareZero name => .set name
  | call callee argument => .call callee (argument.map Value.raise)
  | function name parameter body => .function name parameter (raiseAll body)
  | main body => .start (raiseAll body)

/-- The statements that are lowered to the C++ statements. -/
def raiseAll : List Statement → List SayScript.Statement
  | [] => []
  | s :: rest => s.raise :: raiseAll rest

end

end Statement

/-- The statement that is lowered to the function. -/
def Function.raise (f : Function) : SayScript.Statement :=
  .function f.name f.parameter (Statement.raiseAll f.body)

/-- The statement that is lowered to the `main`. -/
def EntryPoint.raise (e : EntryPoint) : SayScript.Statement :=
  .start (Statement.raiseAll e.body)

end Target

theorem Operand.map_raise_lower (os : List Operand) :
    (os.map Operand.lower).map Target.Value.raise = os := by
  rw [List.map_map]
  apply List.map_id''
  intro o
  cases o <;> rfl

mutual

/-- Lowering a statement loses nothing of it. -/
theorem Statement.raise_lower : ∀ s : Statement, s.lower.raise = s
  | .say fragments terminator => by
    unfold Statement.lower
    split
    · rename_i hdefault
      rw [Target.Statement.raise, Target.raisePrint,
        Operand.map_raise_lower, hdefault]
    · -- the terminator was printed as the last value
      rw [Target.Statement.raise, Target.raisePrint, List.dropLast_concat,
        List.getLast?_concat, Operand.map_raise_lower]
      rfl
  | .set _ => rfl
  | .call callee argument => by
    cases argument with
    | none => rfl
    | some o => cases o <;> rfl
  | .function name parameter body => by
    rw [Statement.lower, Target.Statement.raise,
      Statement.raiseAll_lowerAll body]
  | .start body => by
    rw [Statement.lower, Target.Statement.raise,
      Statement.raiseAll_lowerAll body]

theorem Statement.raiseAll_lowerAll : ∀ ss : List Statement,
    Target.Statement.raiseAll (lowerAll ss) = ss
  | [] => rfl
  | s :: rest => by
    rw [Statement.lowerAll, Target.Statement.raiseAll,
      Statement.raise_lower s, Statement.raiseAll_lowerAll rest]

end

/-- Statements of one kind are raised from what they are lowered to. -/
theorem Statement.map_raise_filterMap {α : Type}
    {lower? : Statement → Option α} {kind : Statement → Bool}
    {raise : α → Statement}
    (h : ∀ s, (lower? s).map raise = if kind s then some s else none)
    (ss : List Statement) :
    (ss.filterMap lower?).map raise = ss.filter kind := by
  rw [List.map_filterMap, ← List.filterMap_eq_filter]
  apply congrArg (List.filterMap · ss)
  funext s
  rw [h]
  rfl

namespace Program

/-- The functions and the start blocks are raised from the source file. -/
theorem raise_lower (p : Program) :
    p.lower.functions.map Target.Function.raise = p.functions ∧
      p.lower.entryPoints.map Target.EntryPoint.raise = p.starts := by
  rw [functions_lower, entryPoints_lower]
  constructor
  · refine Statement.map_raise_filterMap (fun s => ?_) _
    cases s <;> simp [Statement.lowerFunction?, Statement.isFunction,
      Target.Function.raise, Statement.raiseAll_lowerAll]
  · refine Statement.map_raise_filterMap (fun s => ?_) _
    cases s <;> simp [Statement.lowerStart?, Statement.isStart,
      Target.EntryPoint.raise, Statement.raiseAll_lowerAll]

/-- Two programs have the same source file if and only if they have the same
    functions and the same start blocks. -/
theorem lower_eq_iff {p q : Program} :
    p.lower = q.lower ↔ p.functions = q.functions ∧ p.starts = q.starts := by
  constructor
  · intro h
    rw [← p.raise_lower.1, ← p.raise_lower.2, h]
    exact q.raise_lower
  · rintro ⟨hfunctions, hstarts⟩
    rw [lower_eq p, lower_eq q, hfunctions, hstarts]

end Program

/-! ## Names that are words -/

/-- Are all names of the program words? -/
def Program.Named (p : Program) : Prop :=
  ∀ name ∈ p.names, Lexeme.isWord name.toList

instance (p : Program) : Decidable p.Named :=
  inferInstanceAs (Decidable (∀ name ∈ p.names, _))

theorem Operand.named_lower {os : List Operand}
    (h : ∀ name ∈ os.filterMap Operand.name?, Lexeme.isWord name.toList) :
    ∀ v ∈ os.map Operand.lower, v.Named := by
  intro v hv
  obtain ⟨o, ho, rfl⟩ := List.mem_map.mp hv
  cases o with
  | literal text => trivial
  | var name => exact h name (List.mem_filterMap.mpr ⟨_, ho, rfl⟩)

mutual

theorem Statement.named_lower : ∀ s : Statement,
    (∀ name ∈ s.nodes.flatMap ownNames, Lexeme.isWord name.toList) →
    s.lower.Named
  | .say fragments terminator, h => by
    have hvalues : ∀ v ∈ fragments.map Operand.lower, v.Named := by
      apply Operand.named_lower
      simpa [nodes, ownNames] using h
    unfold Statement.lower
    split
    · exact hvalues
    · intro v hv
      rcases List.mem_append.mp hv with hv | hv
      · exact hvalues v hv
      · rw [List.mem_singleton.mp hv]
        trivial
  | .set name, h => h name (by simp [nodes, ownNames])
  | .call callee argument, h => by
    refine ⟨h callee (by simp [nodes, ownNames]), ?_⟩
    have hvalues : ∀ v ∈ argument.toList.map Operand.lower, v.Named := by
      apply Operand.named_lower
      intro name hname
      exact h name (by simp [nodes, ownNames, hname])
    intro v hv
    apply hvalues
    cases argument <;> simp_all
  | .function name parameter body, h => by
    refine ⟨h name (by simp [nodes, ownNames]), ?_,
      Statement.named_lowerAll body ?_⟩
    · intro p hp
      exact h p (by simp_all [nodes, ownNames])
    · intro name hname
      exact h name (by simp only [nodes, List.flatMap_cons, List.mem_append]
                       exact .inr hname)
  | .start body, h => Statement.named_lowerAll body h

theorem Statement.named_lowerAll : ∀ ss : List Statement,
    (∀ name ∈ (nodesOf ss).flatMap ownNames, Lexeme.isWord name.toList) →
    Target.Statement.NamedAll (lowerAll ss)
  | [], _ => trivial
  | s :: rest, h => by
    simp only [nodesOf_cons, List.flatMap_append, List.forall_mem_append]
      at h
    exact ⟨Statement.named_lower s h.1, Statement.named_lowerAll rest h.2⟩

end

namespace Program

theorem named_lower {p : Program} (h : p.Named) : p.lower.Named := by
  have hnode : ∀ s ∈ p.statements, s.lower.Named := by
    have hall := Statement.named_lowerAll p.statements h
    generalize p.statements = ss at hall
    intro s hs
    induction ss with
    | nil => cases hs
    | cons s' ss ih =>
      rcases List.mem_cons.mp hs with rfl | hs
      · exact hall.1
      · exact ih hall.2 hs
  constructor
  · intro f hf
    rw [functions_lower] at hf
    obtain ⟨s, hs, hlower⟩ := List.mem_filterMap.mp hf
    have := hnode s hs
    cases s <;> cases hlower
    exact this
  · intro e he
    rw [entryPoints_lower] at he
    obtain ⟨s, hs, hlower⟩ := List.mem_filterMap.mp he
    have := hnode s hs
    cases s <;> cases hlower
    exact this

/-- The names of a program that was read from a script are words, as they
    are identifiers of the script. -/
theorem named_of_ofScript {limit : Nat} {script : String} {p : Program}
    (h : ofScript limit script = .ok p) : p.Named := by
  obtain ⟨ts, hts, hread⟩ := ofScript_eq_ok h
  obtain ⟨used, hused, hkept⟩ := Reader.kept_of_run hread
  -- a name of the program is the text of an identifier that was used
  intro name hname
  rw [← names_of_kept hkept] at hname
  obtain ⟨t, ht, hkind⟩ := List.mem_filterMap.mp hname
  unfold Token.name? at hkind
  split at hkind
  · rename_i hidentifier
    cases hkind
    have hmem : t ∈ (Session.start limit ts).rest := by
      rw [hused]
      exact List.mem_append_left _ ht
    exact Token.isWord_of_mem_ofScript hts t hmem hidentifier
  · cases hkind

theorem text_eq_iff_of_named {p q : Program} (hp : p.Named) (hq : q.Named) :
    p.text = q.text ↔ p.functions = q.functions ∧ p.starts = q.starts := by
  rw [← lower_eq_iff]
  constructor
  · exact Target.Module.eq_of_text_eq (named_lower hp) (named_lower hq)
  · intro h
    rw [text, text, h]

/-- **The C++ text determines the program**, as far as functions and start
    blocks at top level go, and shows nothing else of it.  This holds for
    all programs whose names are words, whatever their literals are; it
    holds for all programs that are read from scripts, so that two scripts
    have the same text exactly if they agree on these two lists. -/
theorem text_eq_text_iff :
    (∀ p q : Program, p.Named → q.Named →
      (p.text = q.text ↔ p.functions = q.functions ∧ p.starts = q.starts)) ∧
    (∀ limit script p, ofScript limit script = .ok p → p.Named) ∧
    (∀ limit limit' script script' p q, ofScript limit script = .ok p →
      ofScript limit' script' = .ok q →
      (compile limit script = compile limit' script' ↔
        p.functions = q.functions ∧ p.starts = q.starts)) := by
  refine ⟨fun p q => text_eq_iff_of_named,
    fun limit script p => named_of_ofScript, ?_⟩
  intro limit limit' script script' p q hp hq
  rw [← text_eq_iff_of_named (named_of_ofScript hp) (named_of_ofScript hq),
    compile, compile, hp, hq]
  simp [Except.map]

/-- Two scripts that differ in layout, in the order of their definitions and
    in a statement that is dropped have the same text.  A literal that spells
    out the rest of another program does not make for its text. -/
theorem text_eq_text_iff_interleaved :
    let f : Statement := .function "auto" (some "std")
      [.call "return" (some (.literal " 0;"))]
    let p : Program := ⟨[.start [.say [.var "std"] "\\n"], .set "x", f]⟩
    let q : Program := ⟨[f, .start [.say [.var "std"] "\\n"]]⟩
    let script := p.source fun _ => 4
    let script' := q.source fun i => i
    let long : Program := ⟨[f, .start [.say [.var "std"]
      "\" << std::endl;\n    return 0;\n"]]⟩
    (ofScript 1 script = .ok p ∧ ofScript 9 script' = .ok q) ∧
      (p.Named ∧ q.Named ∧ long.Named) ∧
      compile 1 script = compile 9 script' ∧ p.text ≠ long.text := by
  intro f p q script script' long
  have hp : ofScript 1 script = .ok p :=
    ofScript_source_of_fits (by decide) (by decide) _
  have hq : ofScript 9 script' = .ok q :=
    ofScript_source_of_fits (by decide) (by decide) _
  have hnamed := text_eq_text_iff.2.1 1 script p hp
  have hlong : long.Named := by decide
  refine ⟨⟨hp, hq⟩, ⟨hnamed, text_eq_text_iff.2.1 9 script' q hq, hlong⟩,
    (text_eq_text_iff.2.2 1 9 script script' p q hp hq).mpr ⟨rfl, rfl⟩, ?_⟩
  intro heq
  have := ((text_eq_text_iff.1 p long hnamed hlong).mp heq).2
  simp [p, long, f, starts, Statement.isStart, List.filter_cons] at this

end Program

end SayScript
