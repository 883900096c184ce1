import SayScript.FileTree.Path
import SayScript.Storage

/-! # A tree of files in memory

    Files and directories, each at its place: the list of names that lead to
    it from the root, the innermost name first.  Every operation either
    changes the node at one place or reports a fault. -/

namespace SayScript

/-- The names that lead to a file or directory, innermost first. -/
abbrev Place := List String

/-- What a file holds. -/
inductive Content where
  | text (text : String)
  /-- Bytes that are no text. -/
  | binary (bytes : List UInt8)
  deriving DecidableEq, Repr

/-- The content with the given bytes. -/
def Content.ofBytes (bytes : List UInt8) : Content :=
  match String.fromUTF8? ⟨bytes.toArray⟩ with
  | some s => text s
  | none => binary bytes

/-- A file or a directory. -/
inductive Node where
  | file (content : Content)
  | directory
  deriving DecidableEq, Repr

/-- Files and directories with a working directory. -/
structure FileTree where
  /-- The files and directories other than the root, each place once. -/
  nodes : List (Place × Node)
  /-- The directory at which relative paths start. -/
  home : Place
  deriving DecidableEq, Repr

namespace FileTree

/-! ## Nodes -/

/-- The node at a place.  The root is always a directory. -/
def get? (t : FileTree) (place : Place) : Option Node :=
  if place = [] then some .directory else t.nodes.lookup place

/-- Puts a node at a place. -/
def put (t : FileTree) (place : Place) (node : Node) : FileTree :=
  { t with nodes := (place, node) :: t.nodes.filter (·.1 ≠ place) }

/-- Puts directories at a place and at all places around it. -/
def putDirs (t : FileTree) : Place → FileTree
  | [] => t
  | name :: outer =>
    let t := t.putDirs outer
    if t.get? (name :: outer) = none then t.put (name :: outer) .directory
    else t

/-- The tree that holds nothing but the working directory. -/
def ofHome (home : Place) : FileTree :=
  putDirs { nodes := [], home } home

/-! ## Paths -/

/-- Follows the parts of a path from a place.  All places on the way have to
    be directories, the last one need not exist. -/
def walk (t : FileTree) (place : Place) :
    List String → Except StorageFault Place
  | [] => .ok place
  | part :: rest =>
    match t.get? place with
    | none => .error .notFound
    | some (.file _) => .error .notDirectory
    | some .directory =>
      if part = "." then t.walk place rest
      else if part = ".." then t.walk place.tail rest
      else t.walk (part :: place) rest

/-- The place a path leads to. -/
def resolve (t : FileTree) (p : Path) : Except StorageFault Place :=
  t.walk (if p.isAbsolute then [] else t.home) p.parts

/-- Does a path lead to a directory? -/
def hasDirectory (t : FileTree) (p : Path) : Bool :=
  match t.resolve p with
  | .ok place => t.get? place = some .directory
  | .error _ => false

/-! ## Reading and writing -/

/-- The text of the file at a path. -/
def readText (t : FileTree) (p : Path) : Except StorageFault String := do
  match t.get? (← t.resolve p) with
  | none => throw .notFound
  | some .directory => throw .isDirectory
  | some (.file content) =>
    if p.hasSlash then throw .notDirectory
    match content with
    | .text text => return text
    | .binary _ => throw .notText

/-- Writes the file at a path. -/
def writeText (t : FileTree) (p : Path) (text : String) :
    Except StorageFault FileTree := do
  let place ← t.resolve p
  if p.hasSlash || t.get? place = some .directory then throw .isDirectory
  return t.put place (.file (.text text))

/-- Makes the directory at a path, where there must be nothing yet. -/
def makeDir (t : FileTree) (p : Path) : Except StorageFault FileTree := do
  let place ← t.resolve p
  match t.get? place with
  | some _ => throw .alreadyExists
  | none => return t.put place .directory

/-- Makes the first of some directories, each of which lies in the next.
    Those further out are made only if they are missing.  A directory made
    before a fault stays. -/
def makeNested (t : FileTree) :
    List Path → FileTree × Except StorageFault Unit
  | [] => (t, .ok ())
  | p :: outer =>
    let settle (t : FileTree) (fault : StorageFault) :=
      if t.hasDirectory p then (t, .ok ()) else (t, .error fault)
    match t.makeDir p with
    | .ok made => (made, .ok ())
    | .error .notFound =>
      match t.makeNested outer with
      | (t, .error fault) => (t, .error fault)
      | (t, .ok ()) =>
        match t.makeDir p with
        | .ok made => (made, .ok ())
        | .error fault => settle t fault
    | .error fault => settle t fault

/-- Makes the directory at a path with all directories around it, unless it
    is there. -/
def makeDirs (t : FileTree) (p : Path) : FileTree × Except StorageFault Unit :=
  t.makeNested p.ancestors

/-- A tree of files as storage. -/
def storage : Storage (StateM FileTree) where
  readText path := do
    return (← get).readText (.ofString path)
  makeDirs path := do
    let (t, result) := (← get).makeDirs (.ofString path)
    set t
    return result
  writeText path text := do
    match (← get).writeText (.ofString path) text with
    | .ok t =>
      set t
      return .ok ()
    | .error fault => return .error fault

/-! ## Differences -/

/-- The names of a place below another one, outermost first. -/
def below? (home place : Place) : Option (List String) :=
  if home.isSuffixOf place then
    some (place.take (place.length - home.length)).reverse
  else
    none

/-- What is new or different under the working directory since an earlier
    state: files with their text, directories with a final slash. -/
def changesSince (t before : FileTree) : List (String × String) :=
  t.nodes.filterMap fun (place, node) =>
    if before.get? place = some node then none
    else
      match below? t.home place, node with
      | some names, .file (.text text) => some ("/".intercalate names, text)
      | some names, .directory => some ("/".intercalate names ++ "/", "")
      | _, _ => none

end FileTree

end SayScript
