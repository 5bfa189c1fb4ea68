/-!
# File systems

What the program needs of a file system, in any monad: the one it runs in, or a state that holds a
tree of files.
-/

namespace ViewCompiler

/-- Why an operation on files fails. -/
inductive FileError where
  | notFound
  | other (reason : String)
  deriving DecidableEq

def FileError.message : FileError → String
  | notFound => "No such file or directory"
  | other reason => reason

structure FileSystem (m : Type → Type) where
  read : String → m (Except FileError ByteArray)
  /-- The names from the root to what a path leads to, without links. -/
  canonical? : String → m (Option (List String))
  /-- Whether a path leads to something. -/
  present : String → m Bool
  /-- Makes a directory and those that it is in, as far as they do not exist. -/
  makeDirectories : String → m (Except FileError Unit)
  write : String → ByteArray → m (Except FileError Unit)

end ViewCompiler
