import ViewCompiler.Files.Path
import ViewCompiler.Files.System

/-!
# Emitted files

Files that are made in memory first (`EmittedFile`), and their writing below a directory, which no
file can leave (`OutputDirectory.emit`).
-/

namespace ViewCompiler

/-- A file, in a directory below the place where files are put. -/
structure EmittedFile where
  directory : String
  name : String
  content : String
  deriving DecidableEq

namespace EmittedFile

/-- The path of a name in a directory, without more slashes than one between them. -/
def joined (directory name : String) : String :=
  String.ofList (Text.dropEnd (· == '/') directory.toList) ++ "/" ++ name

/-- The path of a file; in the directory without a name, the name alone. -/
def path (f : EmittedFile) : String :=
  if f.directory.isEmpty then f.name else joined f.directory f.name

/-- The first of some files with a directory and a name. -/
def find? (files : List EmittedFile) (directory name : String) : Option EmittedFile :=
  files.find? fun f => f.directory == directory && f.name == name

end EmittedFile

/-- Why a file is not written. -/
inductive EmitError where
  | unsafePath (path : String)
  | writeFailed (path reason : String)
  deriving DecidableEq

def EmitError.message : EmitError → String
  | unsafePath path => "Refusing to emit outside the output root: " ++ path
  | writeFailed path reason => "Failed to write '" ++ path ++ "': " ++ reason

/-- A directory that files are put below. -/
structure OutputDirectory where
  root : String

namespace OutputDirectory

variable {m : Type → Type} [Monad m]

/-- The paths of the directory and of the file to be written for a name in a directory, unless one
of them leads elsewhere. -/
def target? (d : OutputDirectory) (directory name : String) : Option (String × String) :=
  if Path.isConfined directory && Path.isSingle name then
    let place := Path.join d.root directory
    some (place, Path.join place name)
  else none

/-- Writes a file. -/
def emit (fs : FileSystem m) (d : OutputDirectory) (f : EmittedFile) :
    m (Except EmitError Unit) := do
  let path := EmittedFile.joined f.directory f.name
  match d.target? f.directory f.name with
  | none => return .error (.unsafePath path)
  | some (place, target) =>
    match ← fs.makeDirectories place with
    | .error e => return .error (.writeFailed path e.message)
    | .ok () =>
      match ← fs.write target f.content.toUTF8 with
      | .error e => return .error (.writeFailed path e.message)
      | .ok () => return .ok ()

/-- Writes files one after another, up to an error. -/
def emitAll (fs : FileSystem m) (d : OutputDirectory) : List EmittedFile →
    m (Except EmitError Unit)
  | [] => return .ok ()
  | f :: r => do
    match ← d.emit fs f with
    | .error e => return .error e
    | .ok () => d.emitAll fs r

end OutputDirectory

end ViewCompiler
