/-! # Storage

    What a command needs of the place where files are kept, over any monad
    `m`: the same command runs on the files of a machine and on a tree of
    files in memory.  Paths are texts. -/

namespace SayScript

/-- Why a file or directory could not be used. -/
inductive StorageFault where
  | notFound
  | alreadyExists
  /-- A path goes through something that is no directory. -/
  | notDirectory
  | isDirectory
  /-- The bytes of a file are no text. -/
  | notText
  /-- Any other reason, in words. -/
  | other (cause : String)
  deriving DecidableEq, Repr

/-- The fault in words. -/
def StorageFault.cause : StorageFault → String
  | notFound => "No such file or directory (os error 2)"
  | alreadyExists => "File exists (os error 17)"
  | notDirectory => "Not a directory (os error 20)"
  | isDirectory => "Is a directory (os error 21)"
  | notText => "stream did not contain valid UTF-8"
  | other cause => cause

/-- Access to files. -/
structure Storage (m : Type → Type) where
  /-- The text of a file. -/
  readText : String → m (Except StorageFault String)
  /-- Makes a directory with all directories around it, unless it is there. -/
  makeDirs : String → m (Except StorageFault Unit)
  /-- `writeText path text` makes `text` the content of a file, which need
      not exist before. -/
  writeText : String → String → m (Except StorageFault Unit)

end SayScript
