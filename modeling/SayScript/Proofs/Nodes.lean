import SayScript.Program.Basic
import SayScript.Token.Basic

/-! # The statements of a program at all depths

    Blocks hold statements, which can be blocks in turn.  `Program.nodes`
    lists them all in the order of the script, each block before what it
    holds, so that what is said about a whole program is said about the
    members of one list.  The names, the texts and the bodies of a program
    are collected from its nodes, each of which has some of its own. -/

namespace SayScript

namespace Operand

/-- The name of a variable. -/
def name? (o : Operand) : Option String :=
  if o.isVariable then some o.text else none

/-- The text of a literal. -/
def literal? (o : Operand) : Option String :=
  if o.isVariable then none else some o.text

end Operand

namespace Statement

/-! ## What a statement has of its own -/

/-- The keyword a statement starts with; a call starts with a name. -/
def keyword? : Statement → Option Keyword
  | say .. => some .say
  | set _ => some .set
  | call .. => none
  | function .. => some .function
  | start _ => some .start

/-- The statements that stand directly in a block. -/
def body? : Statement → Option (List Statement)
  | function _ _ body => some body
  | start body => some body
  | say .. | set _ | call .. => none

/-- The operands of the statement itself. -/
def ownOperands : Statement → List Operand
  | say fragments _ => fragments
  | call _ argument => argument.toList
  | set _ | function .. | start _ => []

/-- The names in the statement itself, in the order of the script. -/
def ownNames : Statement → List String
  | say fragments _ => fragments.filterMap Operand.name?
  | set name => [name]
  | call callee argument => callee :: argument.toList.filterMap Operand.name?
  | function name parameter _ => name :: parameter.toList
  | start _ => []

/-- The quoted texts in the statement itself: its literals, and the
    terminator of a `say`. -/
def ownTexts : Statement → List String
  | say fragments terminator =>
    fragments.filterMap Operand.literal? ++ [terminator]
  | call _ argument => argument.toList.filterMap Operand.literal?
  | set _ | function .. | start _ => []

/-! ## All statements -/

mutual

/-- The statement and all statements in it, in the order of the script. -/
def nodes : Statement → List Statement
  | say fragments terminator => [say fragments terminator]
  | set name => [set name]
  | call callee argument => [call callee argument]
  | function name parameter body =>
    function name parameter body :: nodesOf body
  | start body => start body :: nodesOf body

/-- The nodes of a list of statements. -/
def nodesOf : List Statement → List Statement
  | [] => []
  | s :: rest => s.nodes ++ nodesOf rest

end

@[simp] theorem nodesOf_nil : nodesOf [] = [] := rfl

@[simp] theorem nodesOf_cons (s : Statement) (rest : List Statement) :
    nodesOf (s :: rest) = s.nodes ++ nodesOf rest := rfl

@[simp] theorem nodesOf_append (ss rest : List Statement) :
    nodesOf (ss ++ rest) = nodesOf ss ++ nodesOf rest := by
  induction ss with
  | nil => rfl
  | cons s ss ih => simp [ih]

/-- The nodes of a statement are among those of the list it stands in. -/
theorem mem_nodesOf {s node : Statement} {ss : List Statement} (hs : s ∈ ss)
    (hnode : node ∈ s.nodes) : node ∈ nodesOf ss := by
  obtain ⟨before, after, rfl⟩ := List.append_of_mem hs
  rw [nodesOf_append, nodesOf_cons]
  exact List.mem_append_right _ (List.mem_append_left _ hnode)

/-- A statement comes before the statements in it. -/
theorem nodes_eq (s : Statement) :
    s.nodes = s :: nodesOf (s.body?.getD []) := by
  cases s <;> rfl

theorem mem_nodes_self (s : Statement) : s ∈ s.nodes := by
  rw [nodes_eq]
  exact List.mem_cons_self

mutual

/-- The operands of a statement are those its nodes have of their own. -/
theorem operands_eq : ∀ s : Statement,
    s.operands = s.nodes.flatMap ownOperands
  | say .. => by simp [operands, nodes, ownOperands]
  | set _ => by simp [operands, nodes, ownOperands]
  | call .. => by simp [operands, nodes, ownOperands]
  | function _ _ body => by
    simp [operands, nodes, ownOperands, operandsOf_eq body]
  | start body => by
    simp [operands, nodes, ownOperands, operandsOf_eq body]

theorem operandsOf_eq : ∀ ss : List Statement,
    operandsOf ss = (nodesOf ss).flatMap ownOperands
  | [] => rfl
  | s :: rest => by
    simp [operandsOf, operands_eq s, operandsOf_eq rest]

end

end Statement

namespace Program

/-- All statements of a program, in the order of the script. -/
def nodes (p : Program) : List Statement :=
  Statement.nodesOf p.statements

/-- All names of a program, in the order of the script. -/
def names (p : Program) : List String :=
  p.nodes.flatMap Statement.ownNames

/-- All literals and terminators of a program, in the order of the script. -/
def texts (p : Program) : List String :=
  p.nodes.flatMap Statement.ownTexts

/-- The bodies of all blocks of a program. -/
def bodies (p : Program) : List (List Statement) :=
  p.nodes.filterMap Statement.body?

/-- Has every block, at every depth, at most `limit` statements? -/
def Fits (limit : Nat) (p : Program) : Prop :=
  ∀ body ∈ p.bodies, body.length ≤ limit

instance (limit : Nat) (p : Program) : Decidable (p.Fits limit) :=
  inferInstanceAs (Decidable (∀ body ∈ p.bodies, body.length ≤ limit))

end Program

end SayScript
