import Mathlib.Data.List.Forall2
import SayScript.Proofs.TargetLayout

/-! # Calls and the heads above them

    A source file has its functions first and each `main` after them, so that
    a call in a `main` stands below the heads of all functions.  The functions
    keep the order of the script, whatever they call.  A call in the body of a
    function stands below the head of that function and of those before it,
    and above the heads of all others.

    To say so about lines of text, `Module.origins` gives for each line of a
    source file what it was written for.  Definitions are numbered from 0,
    first the functions and then each `main`, and a call carries the number of
    the definition it stands in, at whatever depth. -/

namespace SayScript.Target

/-! ## What lines are written for -/

/-- What a line of a source file was written for. -/
inductive Origin where
  /-- The head of a function outside all other definitions. -/
  | head (f : Function)
  /-- A call inside the definition with the given number. -/
  | call (number : Nat) (callee : String) (argument : Option Value)
  /-- Anything else, such as the head of a function inside another. -/
  | other
  deriving Repr

namespace Origin

/-- The function, for a head. -/
def head? : Origin → Option Function
  | head f => some f
  | call .. | other => none

/-- Is the line written for a call? -/
def isCall : Origin → Bool
  | call .. => true
  | head _ | other => false

/-- Is the line written for something inside the definition with the given
    number? -/
def IsWithin (number : Nat) : Origin → Prop
  | head _ => False
  | call n _ _ => n = number
  | other => True

/-- Is the line the text of what it was written for? -/
def Shows : Origin → String → Prop
  | head f, line => line = functionHead f.name f.parameter
  | call _ callee argument, line =>
    ∃ depth, (Statement.call callee argument).lines depth = [line]
  | other, _ => True

end Origin

namespace Statement

mutual

/-- The origins of the lines of a statement inside the definition with the
    given number. -/
def origins (number : Nat) : Statement → List Origin
  | print .. | declareZero _ => [.other]
  | call callee argument => [.call number callee argument]
  -- the head of a function inside another is no head of the source file
  | function _ _ body => .other :: originsOf number body ++ [.other]
  | main body =>
    -- after the body come the return and the closing brace
    mainHead.map (fun _ => .other) ++ originsOf number body ++
      [.other, .other]

/-- The origins of the lines of a list of statements. -/
def originsOf (number : Nat) : List Statement → List Origin
  | [] => []
  | s :: rest => s.origins number ++ originsOf number rest

end

end Statement

/-- The origins of the lines of a function and of the empty line after it. -/
def Function.origins (number : Nat) (f : Function) : List Origin :=
  .head f :: Statement.originsOf number f.body ++ [.other, .other]

/-- The origins of the lines of a `main` and of the empty line after it. -/
def EntryPoint.origins (number : Nat) (e : EntryPoint) : List Origin :=
  (Statement.main e.body).origins number ++ [.other]

namespace Module

/-- The origins of the lines of a source file. -/
def origins (m : Module) : List Origin :=
  preamble.map (fun _ => .other) ++
    m.functions.zipIdx.flatMap (fun f => f.1.origins f.2) ++
    (m.entryPoints.zipIdx m.functions.length).flatMap
      (fun e => e.1.origins e.2)

/-- Does a line before line `i` open a function of the given name? -/
def HeadAbove (m : Module) (i : Nat) (name : String) : Prop :=
  ∃ k < i, ∃ f, m.origins[k]? = some (.head f) ∧ f.name = name

end Module

/-! ## Origins and lines -/

/-- Any lines can be written for something else. -/
theorem Origin.shows_other (ls : List String) :
    List.Forall₂ Shows (ls.map fun _ => other) ls := by
  induction ls with
  | nil => exact .nil
  | cons l ls ih => exact .cons trivial ih

namespace Statement

mutual

theorem shows_lines : ∀ (s : Statement) (number depth : Nat),
    List.Forall₂ Origin.Shows (s.origins number) (s.lines depth)
  | print _ _, _, _ => Origin.shows_other [_]
  | declareZero _, _, _ => Origin.shows_other [_]
  | call _ _, _, depth => .cons ⟨depth, rfl⟩ .nil
  | function _ _ body, number, depth => by
    have hbody := shows_linesOf body number (depth + 1)
    exact .cons trivial (List.rel_append hbody (Origin.shows_other [_]))
  | main body, number, depth => by
    have hbody := shows_linesOf body number (depth + 1)
    have hhead := Origin.shows_other mainHead
    exact List.rel_append (List.rel_append hhead hbody)
      (Origin.shows_other [_, _])

theorem shows_linesOf : ∀ (ss : List Statement) (number depth : Nat),
    List.Forall₂ Origin.Shows (originsOf number ss) (linesOf depth ss)
  | [], _, _ => .nil
  | s :: rest, number, depth =>
    List.rel_append (shows_lines s number depth)
      (shows_linesOf rest number depth)

end

end Statement

theorem Function.shows_lines (number : Nat) (f : Function) :
    List.Forall₂ Origin.Shows (f.origins number) (f.lines ++ [""]) := by
  have hbody := Statement.shows_linesOf f.body number 1
  have hend := Origin.shows_other [closing, ""]
  have hlines : f.lines ++ [""] = functionHead f.name f.parameter ::
      (Statement.linesOf 1 f.body ++ [closing, ""]) := by
    simp [lines, Statement.lines]
  rw [hlines]
  exact .cons rfl (List.rel_append hbody hend)

theorem EntryPoint.shows_lines (number : Nat) (e : EntryPoint) :
    List.Forall₂ Origin.Shows (e.origins number) (e.lines ++ [""]) :=
  List.rel_append (Statement.shows_lines _ number 0)
    (Origin.shows_other [""])

/-- Numbered definitions one after the other. -/
theorem Origin.shows_flatMap {α : Type} {origins : Nat → α → List Origin}
    {lines : α → List String}
    (h : ∀ number a, List.Forall₂ Shows (origins number a) (lines a))
    (as : List α) (number : Nat) :
    List.Forall₂ Shows
      ((as.zipIdx number).flatMap fun a => origins a.2 a.1)
      (as.flatMap lines) := by
  induction as generalizing number with
  | nil => exact .nil
  | cons a as ih => exact List.rel_append (h number a) (ih (number + 1))

theorem Module.shows_lines (m : Module) :
    List.Forall₂ Origin.Shows m.origins m.lines := by
  have hfunctions := Origin.shows_flatMap Function.shows_lines m.functions 0
  have hmains := Origin.shows_flatMap EntryPoint.shows_lines m.entryPoints
    m.functions.length
  exact List.rel_append
    (List.rel_append (Origin.shows_other preamble) hfunctions) hmains

/-! ## Heads above calls -/

section Above

variable (fs : List Function)

/-- Below the given heads, each call of these lines has the heads of the
    functions up to its own definition above it, in their order, and no
    others. -/
def Above (heads : List Function) (os : List Origin) : Prop :=
  ∀ i number callee argument,
    os[i]? = some (.call number callee argument) →
    heads ++ (os.take i).filterMap Origin.head? = fs.take (number + 1)

variable {fs} {heads : List Function} {os os' : List Origin}

theorem above_of_not_isCall (h : ∀ o ∈ os, ¬ o.isCall) :
    Above fs heads os := by
  intro i number callee argument hcall
  exact absurd rfl (h _ (List.mem_of_getElem? hcall))

theorem Above.append (h : Above fs heads os)
    (h' : Above fs (heads ++ os.filterMap Origin.head?) os') :
    Above fs heads (os ++ os') := by
  intro i number callee argument hcall
  by_cases hi : i < os.length
  · rw [List.getElem?_append_left hi] at hcall
    rw [List.take_append_of_le_length (Nat.le_of_lt hi)]
    exact h i number callee argument hcall
  · -- above a call of the second part are also all heads of the first
    have hle : os.length ≤ i := Nat.le_of_not_lt hi
    rw [List.getElem?_append_right hle] at hcall
    rw [List.take_append, List.take_of_length_le hle, List.filterMap_append,
      ← List.append_assoc]
    exact h' (i - os.length) number callee argument hcall

/-- Lines inside one definition have no heads, and so all their calls have the
    heads that the lines themselves are below. -/
theorem above_of_isWithin (fs : List Function) {number : Nat}
    (h : ∀ o ∈ os, o.IsWithin number) :
    os.filterMap Origin.head? = [] ∧ Above fs (fs.take (number + 1)) os := by
  -- said of some of the lines, as those above a call are needed too
  have hheads : ∀ os' : List Origin, (∀ o ∈ os', o ∈ os) →
      os'.filterMap Origin.head? = [] := by
    intro os' hsub
    rw [List.filterMap_eq_nil_iff]
    intro o ho
    have hwithin := h o (hsub o ho)
    cases o with
    | head f => exact hwithin.elim
    | call _ _ _ => rfl
    | other => rfl
  refine ⟨hheads os fun _ => id, ?_⟩
  intro i number' callee argument hcall
  have hnumber : number' = number := h _ (List.mem_of_getElem? hcall)
  rw [hnumber, hheads _ fun o => List.mem_of_mem_take, List.append_nil]

end Above

namespace Statement

mutual

theorem isWithin_origins : ∀ (s : Statement) (number : Nat),
    ∀ o ∈ s.origins number, o.IsWithin number
  | print _ _, _ => by simp [origins, Origin.IsWithin]
  | declareZero _, _ => by simp [origins, Origin.IsWithin]
  | call _ _, _ => by simp [origins, Origin.IsWithin]
  | function _ _ body, number => by
    have hbody := isWithin_originsOf body number
    rw [origins, List.cons_append, List.forall_mem_cons,
      List.forall_mem_append]
    exact ⟨trivial, hbody, by simp [Origin.IsWithin]⟩
  | main body, number => by
    have hbody := isWithin_originsOf body number
    rw [origins, List.forall_mem_append, List.forall_mem_append]
    exact ⟨⟨by simp [Origin.IsWithin], hbody⟩, by simp [Origin.IsWithin]⟩

theorem isWithin_originsOf : ∀ (ss : List Statement) (number : Nat),
    ∀ o ∈ originsOf number ss, o.IsWithin number
  | [], _ => by simp [originsOf]
  | s :: rest, number => by
    rw [originsOf, List.forall_mem_append]
    exact ⟨isWithin_origins s number, isWithin_originsOf rest number⟩

end

end Statement

/-- A function is below the heads of those before it, and adds its own. -/
theorem Function.above (before after : List Function) (f : Function) :
    (f.origins before.length).filterMap Origin.head? = [f] ∧
      Above (before ++ f :: after) before (f.origins before.length) := by
  let rest := Statement.originsOf before.length f.body ++
    [Origin.other, Origin.other]
  have hwithin : ∀ o ∈ rest, o.IsWithin before.length := by
    rw [List.forall_mem_append]
    exact ⟨Statement.isWithin_originsOf _ _, by simp [Origin.IsWithin]⟩
  obtain ⟨hheads, hrest⟩ :=
    above_of_isWithin (before ++ f :: after) hwithin
  have hupto : (before ++ f :: after).take (before.length + 1) =
      before ++ [f] := by
    rw [List.append_cons]
    exact List.take_left' (by simp)
  rw [hupto] at hrest
  have hhead : Above (before ++ f :: after) before [Origin.head f] :=
    above_of_not_isCall (by simp [Origin.isCall])
  show (Origin.head f :: rest).filterMap Origin.head? = [f] ∧
    Above (before ++ f :: after) before ([Origin.head f] ++ rest)
  refine ⟨?_, hhead.append hrest⟩
  rw [List.filterMap_cons, hheads]
  rfl

theorem above_functions (before fs : List Function) :
    let os := (fs.zipIdx before.length).flatMap fun f => f.1.origins f.2
    os.filterMap Origin.head? = fs ∧ Above (before ++ fs) before os := by
  -- the functions that are done move over to those before
  induction fs generalizing before with
  | nil => exact ⟨rfl, above_of_not_isCall (List.forall_mem_nil _)⟩
  | cons f fs ih =>
    intro os
    obtain ⟨hhead, hf⟩ := f.above before fs
    obtain ⟨hheads, hfs⟩ := ih (before ++ [f])
    rw [List.length_append, List.length_singleton] at hheads hfs
    rw [← List.append_cons] at hfs
    constructor
    · simp only [os, List.zipIdx_cons, List.flatMap_cons,
        List.filterMap_append, hhead, hheads]
      rfl
    · apply hf.append
      rw [hhead]
      exact hfs

/-- Each `main` is below the heads of all functions, and adds none. -/
theorem above_entryPoints (fs : List Function) (es : List EntryPoint)
    {number : Nat} (h : fs.length ≤ number) :
    Above fs fs ((es.zipIdx number).flatMap fun e => e.1.origins e.2) := by
  induction es generalizing number with
  | nil => exact above_of_not_isCall (List.forall_mem_nil _)
  | cons e es ih =>
    have hwithin : ∀ o ∈ e.origins number, o.IsWithin number := by
      rw [EntryPoint.origins, List.forall_mem_append]
      exact ⟨Statement.isWithin_origins _ _, by simp [Origin.IsWithin]⟩
    obtain ⟨hheads, he⟩ := above_of_isWithin fs hwithin
    -- the number is past those of all functions
    rw [List.take_of_length_le (by omega)] at he
    apply he.append
    rw [hheads, List.append_nil]
    exact ih (by omega)

/-- The heads above a call are those of the functions up to the definition it
    stands in. -/
theorem Module.above (m : Module) : Above m.functions [] m.origins := by
  have hpreamble : Above m.functions []
      (preamble.map fun _ => Origin.other) :=
    above_of_not_isCall (by simp [Origin.isCall])
  obtain ⟨hheads, hfunctions⟩ := above_functions [] m.functions
  have hmains := above_entryPoints m.functions m.entryPoints (Nat.le_refl _)
  apply (hpreamble.append hfunctions).append
  rw [List.filterMap_append, hheads]
  exact hmains

theorem Module.headAbove_iff {m : Module} {i number : Nat} {callee : String}
    {argument : Option Value}
    (h : m.origins[i]? = some (.call number callee argument)) :
    m.HeadAbove i callee ↔
      ∃ f ∈ m.functions.take (number + 1), f.name = callee := by
  have habove := m.above i number callee argument h
  rw [List.nil_append] at habove
  rw [← habove]
  constructor
  · rintro ⟨k, hk, f, hf, hname⟩
    have hmem : Origin.head f ∈ m.origins.take i :=
      List.mem_of_getElem? ((List.getElem?_take_of_lt hk).trans hf)
    exact ⟨f, List.mem_filterMap.mpr ⟨_, hmem, rfl⟩, hname⟩
  · rintro ⟨f, hf, hname⟩
    obtain ⟨o, ho, hhead⟩ := List.mem_filterMap.mp hf
    obtain ⟨k, hk⟩ := List.mem_iff_getElem?.mp ho
    have hlt : k < i := by
      have := (List.getElem?_eq_some_iff.mp hk).1
      rw [List.length_take] at this
      omega
    rw [List.getElem?_take_of_lt hlt] at hk
    cases o with
    | head g =>
      cases hhead
      exact ⟨k, hlt, f, hk, hname⟩
    | call _ _ _ => cases hhead
    | other => cases hhead

end SayScript.Target

namespace SayScript

/-! ## The calls of a program -/

open Target (Origin)

namespace Statement

/-- The origin of the line of a call, in the definition with the given
    number. -/
def callOrigin? (number : Nat) : Statement → Option Origin
  | call callee argument =>
    some (.call number callee (argument.map Operand.lower))
  | say .. | set _ | function .. | start _ => none

mutual

theorem calls_lower : ∀ (s : Statement) (number : Nat),
    (s.lower.origins number).filter Origin.isCall =
      s.nodes.filterMap (callOrigin? number)
  | say _ _, _ => by
    unfold lower
    split <;> rfl
  | set _, _ => rfl
  | call _ _, _ => rfl
  | function _ _ body, number => by
    -- a block is no call itself
    show _ = (nodesOf body).filterMap (callOrigin? number)
    rw [← calls_lowerAll body number]
    simp [lower, Target.Statement.origins, Origin.isCall]
  | start body, number => by
    show _ = (nodesOf body).filterMap (callOrigin? number)
    rw [← calls_lowerAll body number]
    simp [lower, Target.Statement.origins, Origin.isCall]

theorem calls_lowerAll : ∀ (ss : List Statement) (number : Nat),
    (Target.Statement.originsOf number (lowerAll ss)).filter Origin.isCall =
      (nodesOf ss).filterMap (callOrigin? number)
  | [], _ => rfl
  | s :: rest, number => by
    rw [lowerAll, Target.Statement.originsOf, List.filter_append,
      calls_lower s number, calls_lowerAll rest number, nodesOf_cons,
      List.filterMap_append]

end

/-- The calls in those statements of a list that become definitions of one
    kind, numbered one after the other. -/
theorem calls_definitions {α : Type} {lower? : Statement → Option α}
    {isDefined : Statement → Bool} {origins : Nat → α → List Origin}
    (hdefined : ∀ s, (lower? s).isSome = isDefined s)
    (horigins : ∀ s a number, lower? s = some a →
      (origins number a).filter Origin.isCall =
        s.nodes.filterMap (callOrigin? number))
    (ss : List Statement) (number : Nat) :
    (((ss.filterMap lower?).zipIdx number).flatMap
        fun a => origins a.2 a.1).filter Origin.isCall =
      ((ss.filter isDefined).zipIdx number).flatMap
        fun d => d.1.nodes.filterMap (callOrigin? d.2) := by
  induction ss generalizing number with
  | nil => rfl
  | cons s ss ih =>
    rw [List.filterMap_cons, List.filter_cons, ← hdefined s]
    cases ha : lower? s with
    | none => exact ih number
    | some a =>
      show ((origins number a ++ _).filter Origin.isCall) =
        s.nodes.filterMap (callOrigin? number) ++ _
      rw [List.filter_append, horigins s a number ha]
      exact congrArg _ (ih (number + 1))

theorem calls_lowerFunction {s : Statement} {f : Target.Function}
    (number : Nat) (h : s.lowerFunction? = some f) :
    (f.origins number).filter Origin.isCall =
      s.nodes.filterMap (callOrigin? number) := by
  cases s with
  | function name parameter body =>
    cases h
    show _ = (nodesOf body).filterMap (callOrigin? number)
    rw [← calls_lowerAll body number]
    simp [Target.Function.origins, Origin.isCall]
  | _ => cases h

theorem calls_lowerStart {s : Statement} {e : Target.EntryPoint}
    (number : Nat) (h : s.lowerStart? = some e) :
    (e.origins number).filter Origin.isCall =
      s.nodes.filterMap (callOrigin? number) := by
  cases s with
  | start body =>
    cases h
    rw [← calls_lower, Target.EntryPoint.origins, List.filter_append]
    exact List.append_nil _
  | _ => cases h

end Statement

namespace Program

theorem length_functions_lower (p : Program) :
    p.lower.functions.length = p.functions.length := by
  rw [← p.raise_lower.1, List.length_map]

/-- The calls of the source file are those of the functions and the start
    blocks of the program, numbered in this order. -/
theorem calls_lower (p : Program) :
    p.lower.origins.filter Origin.isCall =
      (p.functions ++ p.starts).zipIdx.flatMap fun d =>
        d.1.nodes.filterMap (Statement.callOrigin? d.2) := by
  have hfunctions : (p.lower.functions.zipIdx.flatMap
      fun f => f.1.origins f.2).filter Origin.isCall =
        p.functions.zipIdx.flatMap
          fun d => d.1.nodes.filterMap (Statement.callOrigin? d.2) := by
    rw [functions_lower]
    exact Statement.calls_definitions (by intro s; cases s <;> rfl)
      (fun _ _ number => Statement.calls_lowerFunction number) _ _
  have hstarts : ((p.lower.entryPoints.zipIdx p.functions.length).flatMap
      fun e => e.1.origins e.2).filter Origin.isCall =
        (p.starts.zipIdx p.functions.length).flatMap
          fun d => d.1.nodes.filterMap (Statement.callOrigin? d.2) := by
    rw [entryPoints_lower]
    exact Statement.calls_definitions (by intro s; cases s <;> rfl)
      (fun _ _ number => Statement.calls_lowerStart number) _ _
  rw [Target.Module.origins, p.length_functions_lower, List.filter_append, List.filter_append,
    hfunctions, hstarts, List.zipIdx_append, List.flatMap_append, Nat.zero_add]
  rfl

end Program

/-- **Which calls follow a head of their callee.**  Each line of the text of a
    script is written for something, and the lines that are written for calls
    are those of all calls in functions and start blocks, at any depth.  A
    head of the callee is above a call in a function exactly if a function of
    that name is this one or one before it in the script.  If a function of
    that name exists at all, a head is above each call in a start block. -/
theorem callSites_of_compile {limit : Nat} {script text : String}
    (h : compile limit script = .ok text) :
    ∃ p, Program.ofScript limit script = .ok p ∧
      text.toList.splitOn '\n' = p.lower.lines.map String.toList ++ [[]] ∧
      List.Forall₂ Origin.Shows p.lower.origins p.lower.lines ∧
      (p.lower.origins.filter Origin.isCall =
        (p.functions ++ p.starts).zipIdx.flatMap fun d =>
          d.1.nodes.filterMap (Statement.callOrigin? d.2)) ∧
      ∀ i number callee argument,
        p.lower.origins[i]? = some (.call number callee argument) →
        (p.lower.HeadAbove i callee ↔
          ∃ f ∈ p.lower.functions.take (number + 1), f.name = callee) ∧
        (p.functions.length ≤ number →
          (∃ f ∈ p.lower.functions, f.name = callee) →
          p.lower.HeadAbove i callee) := by
  obtain ⟨p, hread, rfl⟩ := compile_eq_ok h
  refine ⟨p, hread, Program.splitOn_text hread, p.lower.shows_lines,
    p.calls_lower, ?_⟩
  intro i number callee argument hcall
  have hiff := Target.Module.headAbove_iff hcall
  refine ⟨hiff, ?_⟩
  intro hstart hexists
  have hlength : p.lower.functions.length ≤ number + 1 := by
    rw [p.length_functions_lower]
    omega
  rw [hiff, List.take_of_length_le hlength]
  exact hexists

/-- Two functions that call each other, one of them from a start block inside
    it and also itself, and a start block that comes first in the script. -/
theorem callSites_of_compile_mutual :
    let f : Statement :=
      .function "f" none [.start [.call "g" none, .call "f" none]]
    let g : Statement := .function "g" (some "x") [.call "f" none]
    let p : Program :=
      ⟨[.start [.function "h" none [.call "g" none]], f, g]⟩
    compile 2 (p.source fun _ => 0) = .ok p.text ∧
      (p.lower.origins[13]? = some (.call 0 "g" none) ∧
        ¬ p.lower.HeadAbove 13 "g") ∧
      (p.lower.origins[14]? = some (.call 0 "f" none) ∧
        p.lower.HeadAbove 14 "f") ∧
      (p.lower.origins[20]? = some (.call 1 "f" none) ∧
        p.lower.HeadAbove 20 "f") ∧
      p.lower.origins[29]? = some (.call 2 "g" none) ∧
        p.lower.HeadAbove 29 "g" := by
  intro f g p
  have hread : Program.ofScript 2 (p.source fun _ => 0) = .ok p :=
    Program.ofScript_source_of_fits (by decide) (by decide) _
  have hcompile : compile 2 (p.source fun _ => 0) = .ok p.text := by
    rw [compile, hread]
    rfl
  obtain ⟨p', hread', -, -, -, hcalls⟩ := callSites_of_compile hcompile
  cases hread.symm.trans hread'
  refine ⟨hcompile, ⟨rfl, ?_⟩, ⟨rfl, ?_⟩, ⟨rfl, ?_⟩, rfl, ?_⟩
  · rw [(hcalls 13 0 "g" none rfl).1]
    decide
  · rw [(hcalls 14 0 "f" none rfl).1]
    decide
  · rw [(hcalls 20 1 "f" none rfl).1]
    decide
  · exact (hcalls 29 2 "g" none rfl).2 (by decide) (by decide)

/-- The head of a function that another one calls can be below the call: the
    functions keep the order of the script. -/
theorem headAbove_fails_for_next_function :
    let p : Program :=
      ⟨[.function "a" none [.call "b" none], .function "b" none []]⟩
    compile 5 "function a:\nb\nend\nfunction b:\nend\n" = .ok p.text ∧
      p.lower.lines[8]? = some "    b();" ∧
      p.lower.lines[11]? = some "void b() \x7b" ∧
      p.lower.origins[8]? = some (.call 0 "b" none) ∧
      p.lower.origins[11]? = some (.head ⟨"b", none, []⟩) ∧
      ¬ p.lower.HeadAbove 8 "b" := by
  intro p
  have hread : Program.ofScript 5 (p.source fun _ => 0) = .ok p :=
    Program.ofScript_source_of_fits (by decide) (by decide) _
  have hsource : p.source (fun _ => 0) =
      "function a:\nb\nend\nfunction b:\nend\n" := by decide +kernel
  have hcall : p.lower.origins[8]? = some (.call 0 "b" none) := rfl
  refine ⟨?_, by decide +kernel, by decide +kernel, hcall, rfl, ?_⟩
  · rw [← hsource, compile, hread]
    rfl
  · rw [Target.Module.headAbove_iff hcall]
    decide

end SayScript
