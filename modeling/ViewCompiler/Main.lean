import ViewCompiler.CommandLine

/-!
# The program

The command in the file system of the machine that it runs on.
-/

namespace ViewCompiler

namespace Disk

/-- The outcome of an action on files. -/
def attempt {α : Type} (action : IO α) : IO (Except FileError α) := do
  try
    return .ok (← action)
  catch e =>
    match e with
    | .noFileOrDirectory .. => return .error .notFound
    | e => return .error (.other (toString e))

/-- The absolute path that a path leads to, without links. -/
def realPath? (path : String) : IO (Option String) := do
  if path.isEmpty then return none
  return (← attempt (IO.FS.realPath path)).toOption.map fun p => p.toString

/-- The names on an absolute path. -/
def names (path : String) : List String :=
  ((Text.runs (· == '/') path.toList)).map String.ofList

def system : FileSystem IO where
  read path := attempt (IO.FS.readBinFile path)
  canonical? path := do return (← realPath? path).map names
  present path := do return (← realPath? path).isSome
  makeDirectories path := attempt (if path.isEmpty then return () else IO.FS.createDirAll path)
  write path content := attempt (IO.FS.writeBinFile path content)

/-- Runs the command, and shows why it fails. -/
def run (slug : String → String) (size : ByteArray → Except String (Nat × Nat))
    (arguments : List String) : IO UInt32 := do
  let outcome ← CommandLine.run slug size Disk.system arguments
  match outcome with
  | .error e => (← IO.getStderr).putStrLn e.message
  | .ok _ => pure ()
  return (CommandLine.exitCode outcome).toUInt32

end Disk

end ViewCompiler
