import SayScript.Reader.Run

/-! # Command lines

    A command is `build SOURCE OUTPUT` or `check SOURCE`.  Options can stand
    anywhere after the first word, with their value as the next argument or
    after an equals sign, and each at most once; the argument `--` ends them.
    Every command line that breaks a rule is refused. -/

namespace SayScript

/-- The options of all commands. -/
structure Options where
  /-- How many items a block may hold. -/
  limit : Nat
  /-- Is there to be advice on layout? -/
  advises : Bool
  deriving DecidableEq, Repr

/-- What the program can be told to do. -/
inductive Command where
  /-- Writes the C++ text of a script, and on request the intermediate
      results into a directory. -/
  | build (source output : String) (intermediates : Option String)
      (options : Options)
  /-- Only says whether a script is accepted. -/
  | check (source : String) (options : Options)
  deriving DecidableEq, Repr

namespace Command

/-- One item of a command line. -/
inductive Item where
  /-- An argument that is no option. -/
  | operand (text : String)
  /-- `--emit-intermediates`. -/
  | intermediates (directory : String)
  /-- `--max-block-statements`. -/
  | limit (value : String)
  /-- `--no-indent-check`. -/
  | noAdvice
  deriving DecidableEq, Repr

/-- Does the argument look like an option?  A dash alone does not: it can be
    the name of a file. -/
def isDashed (arg : String) : Bool :=
  arg.toList.head? = some '-' && arg ≠ "-"

/-- An argument, cut at its first equals sign. -/
def cutValue (arg : String) : String × Option String :=
  let cs := arg.toList
  let name := String.ofList (cs.takeWhile (· ≠ '='))
  match cs.dropWhile (· ≠ '=') with
  | [] => (name, none)
  | _ :: value => (name, some (String.ofList value))

/-- The option that has the given name and takes a value. -/
def valued? (name : String) : Option (String → Item) :=
  match name with
  | "--emit-intermediates" => some .intermediates
  | "--max-block-statements" => some .limit
  | _ => none

/-- The items of a command line, if each option is known and has a value
    exactly when it takes one. -/
def items? : List String → Option (List Item)
  | [] => some []
  | arg :: rest =>
    if arg = "--" then
      some (rest.map .operand)
    else if !isDashed arg then
      (items? rest).map (.operand arg :: ·)
    else if arg = "--no-indent-check" then
      (items? rest).map (.noAdvice :: ·)
    else
      match valued? (cutValue arg).1, (cutValue arg).2, rest with
      | some option, some value, rest => (items? rest).map (option value :: ·)
      | some option, none, value :: rest =>
        if isDashed value then none else (items? rest).map (option value :: ·)
      | _, _, _ => none

/-- Numbers are below this bound. -/
def numberBound : Nat :=
  UInt64.size

/-- Reads a number: decimal digits, with a plus sign or without. -/
def number? (s : String) : Option Nat :=
  let digits := match s.toList with
    | '+' :: rest => rest
    | cs => cs
  let n := digits.foldl (fun n c => 10 * n + (c.toNat - '0'.toNat)) 0
  if !digits.isEmpty && digits.all Char.isDigit && n < numberBound then some n
  else none

/-- The value of an option that can be given once: `none` if it is given more
    often. -/
def once? {α : Type} : List α → Option (Option α)
  | [] => some none
  | [a] => some (some a)
  | _ => none

/-- The arguments that are no options. -/
def operands (items : List Item) : List String :=
  items.filterMap fun
    | .operand text => some text
    | _ => none

/-- The directory for intermediate results, if one is given. -/
def directory? (items : List Item) : Option (Option String) :=
  once? (items.filterMap fun
    | .intermediates directory => some directory
    | _ => none)

/-- The options of all commands. -/
def options? (items : List Item) : Option Options := do
  let value ← once? (items.filterMap fun
    | .limit value => some value
    | _ => none)
  let noAdvice ← once? (items.filter (· = .noAdvice))
  let limit ← match value with
    | some text => number? text
    | none => some Reader.defaultLimit
  return { limit, advises := noAdvice.isNone }

/-- The command with the given first word and items.  No path is empty. -/
def ofItems? (word : String) (items : List Item) : Option Command := do
  let options ← options? items
  let directory ← directory? items
  let paths := operands items
  if (paths ++ directory.toList).any String.isEmpty then none
  match word, paths, directory with
  | "build", [source, output], directory =>
    return .build source output directory options
  | "check", [source], none => return .check source options
  | _, _, _ => none

/-- The command with the given arguments. -/
def ofArguments? : List String → Option Command
  | [] => none
  | word :: rest => do ofItems? word (← items? rest)

end Command

end SayScript
