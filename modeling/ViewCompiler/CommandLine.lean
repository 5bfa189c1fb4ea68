import ViewCompiler.Convert
import ViewCompiler.Files.Output
import ViewCompiler.Snapshot

/-!
# The command

Converts the documents of a snapshot file, with the images beside it, and writes the output below
a directory.

* `CommandLine.Request.ofArguments?` : what is asked for;
* `CommandLine.run` : the work, in any file system;
* `CommandLine.exitCode` : zero for success, two if some document has no output, one for failure.
-/

namespace ViewCompiler

namespace CommandLine

/-- The paths on a command line. -/
structure Request where
  snapshot : String
  output : String
  config : Option String

def Request.ofArguments? : List String → Option Request
  | [snapshot, output] => some ⟨snapshot, output, none⟩
  | [snapshot, output, config] => some ⟨snapshot, output, some config⟩
  | _ => none

inductive Failure where
  | usage
  | file (cause : FileError)
  | config (cause : ConfigError)
  /-- The file is not a snapshot. -/
  | snapshot
  | conversion (cause : ConversionError)
  | emit (cause : EmitError)

def Failure.message : Failure → String
  | usage =>
    "Converts a measured box-tree snapshot into Android layouts and resources.\n\n" ++
      "Usage: viewcompiler <path/to/snapshot.json> <output/dir> [path/to/config.json]"
  | file cause => "I/O error: " ++ cause.message
  | config cause => cause.message
  | snapshot => "JSON error"
  | conversion cause => cause.message
  | emit cause => "Emit error: " ++ cause.message

def exitCode : Except Failure Bool → UInt8
  | .ok true => 0
  | .ok false => 2
  | .error _ => 1

section

variable {m : Type → Type} [Monad m]

/-- Reads a file with text. -/
def readText (fs : FileSystem m) (path : String) : m (Except Failure String) := do
  match ← fs.read path with
  | .error e => return .error (.file e)
  | .ok content =>
    match String.fromUTF8? content with
    | some text => return .ok text
    | none => return .error (.file (.other "stream did not contain valid UTF-8"))

/-- Reads the configuration, if there is one. -/
def readConfig (fs : FileSystem m) : Option String → m (Except Failure ConversionConfig)
  | none => return .ok .default
  | some path => do
    match ← readText fs path with
    | .error e => return .error e
    | .ok text =>
      match ConversionConfig.ofText text with
      | .ok config => return .ok config
      | .error e => return .error (.config e)

/-- Reads the snapshot. -/
def readSnapshot (fs : FileSystem m) (path : String) : m (Except Failure Snapshot) := do
  match ← fs.read path with
  | .error e => return .error (.file e)
  | .ok content =>
    match (String.fromUTF8? content).bind Snapshot.ofText? with
    | some snapshot => return .ok snapshot
    | none => return .error .snapshot

/-- The sources of the images that the elements with some handles show. -/
def imageSources (p : Provider) (handles : List Handle) : List String :=
  handles.filterMap fun h => (p.measure h).toOption.bind Ingest.imageOf

/-- Loads assets one after another, each with its source. -/
def loadAll (fs : FileSystem m) (d : AssetDirectory) :
    List String → m (List (String × Except AssetError ByteArray))
  | [] => return []
  | source :: r => do
    let content ← d.load fs source
    return (source, content) :: (← loadAll fs d r)

/-- The loader of the images that a snapshot shows, from the directory that the snapshot is in. -/
def imageLoader (size : ByteArray → Except String (Nat × Nat)) (fs : FileSystem m) (path : String)
    (s : Snapshot) : m ImageLoader := do
  let assets ← AssetDirectory.ofPath fs ((Path.parent? path).getD ".")
  let loaded ← loadAll fs assets (imageSources s.provider (List.range s.elementCount))
  return .ofAssets size fun source => (loaded.lookup source).getD (.error (.notFound source))

/-- Writes the output of a conversion. -/
def writeOutput (fs : FileSystem m) (path : String) (o : ConversionOutput) :
    m (Except Failure Unit) := do
  match ← fs.makeDirectories path with
  | .error e => return .error (.file e)
  | .ok () =>
    match ← OutputDirectory.emitAll fs ⟨path⟩ o.files with
    | .error e => return .error (.emit e)
    | .ok () => return .ok ()

/-- Carries a request out.  The answer says whether every document has output. -/
def carryOut (slug : String → String) (size : ByteArray → Except String (Nat × Nat))
    (fs : FileSystem m) (q : Request) : m (Except Failure Bool) := do
  match ← readConfig fs q.config with
  | .error e => return .error e
  | .ok config =>
    match ← readSnapshot fs q.snapshot with
    | .error e => return .error e
    | .ok snapshot =>
      let loader ← imageLoader size fs q.snapshot snapshot
      let converter := { Converter.ofConfig config slug with loader := some loader }
      match (converter.convert snapshot.provider ()).1 with
      | .error e => return .error (.conversion e)
      | .ok output =>
        match ← writeOutput fs q.output output with
        | .error e => return .error e
        | .ok () => return .ok (!output.hasErrors)

/-- Runs the command with some arguments.  Names are made from the slugs of texts, and images have
the sizes that their bytes say. -/
def run (slug : String → String) (size : ByteArray → Except String (Nat × Nat))
    (fs : FileSystem m) (arguments : List String) : m (Except Failure Bool) :=
  match Request.ofArguments? arguments with
  | none => return .error .usage
  | some q => carryOut slug size fs q

end

end CommandLine

end ViewCompiler
