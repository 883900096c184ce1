/-! # The C++ model

    The part of C++ that programs are turned into: printing, zero-valued
    variables, calls, functions and `main`.  Nothing is checked here; names
    are any texts. -/

namespace SayScript.Target

/-- A value in a statement. -/
inductive Value where
  /-- A string literal with the given content. -/
  | text (content : String)
  /-- A variable. -/
  | name (name : String)
  deriving DecidableEq, Repr

/-- A statement or a definition among statements. -/
inductive Statement where
  /-- Prints the values, and then a line end if asked to. -/
  | print (values : List Value) (lineEnd : Bool)
  /-- Declares a variable with value zero. -/
  | declareZero (name : String)
  | call (callee : String) (argument : Option Value)
  | function (name : String) (parameter : Option String)
      (body : List Statement)
  /-- The function `main`. -/
  | main (body : List Statement)
  deriving Repr

/-- A function definition outside all others. -/
structure Function where
  name : String
  parameter : Option String
  body : List Statement
  deriving Repr

/-- A `main` outside all other definitions. -/
structure EntryPoint where
  body : List Statement
  deriving Repr

/-- A whole source file. -/
structure Module where
  functions : List Function
  entryPoints : List EntryPoint
  deriving Repr

namespace Module

/-- The source file with no definitions. -/
def empty : Module :=
  { functions := [], entryPoints := [] }

/-- Adds a function after the others. -/
def addFunction (m : Module) (f : Function) : Module :=
  { m with functions := m.functions ++ [f] }

/-- Adds a `main` after the others. -/
def addEntryPoint (m : Module) (e : EntryPoint) : Module :=
  { m with entryPoints := m.entryPoints ++ [e] }

end Module

end SayScript.Target
