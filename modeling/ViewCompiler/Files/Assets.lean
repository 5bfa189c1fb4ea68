import ViewCompiler.Files.Path
import ViewCompiler.Files.System
import ViewCompiler.SortedMap

/-!
# Assets

The bytes of images and other assets, by the path that a document gives for them.

* `AssetStore` : assets held in memory;
* `AssetDirectory` : assets below a directory, which a path cannot leave, not over a link either.
-/

namespace ViewCompiler

/-- Why an asset is not there. -/
inductive AssetError where
  | notFound (path : String)
  | outsideRoot (path : String)
  | loadFailed (path reason : String)
  deriving DecidableEq

def AssetError.message : AssetError → String
  | notFound path => "Asset not found: " ++ path
  | outsideRoot path => "Asset path escapes the asset root: " ++ path
  | loadFailed path reason => "Failed to read asset '" ++ path ++ "': " ++ reason

/-- Assets held in memory. -/
structure AssetStore where
  assets : SortedMap String ByteArray

namespace AssetStore

def empty : AssetStore := ⟨.empty⟩

/-- Puts an asset in the place of another one with the same path. -/
def add (s : AssetStore) (path : String) (content : ByteArray) : AssetStore :=
  ⟨s.assets.insert (Path.asset path) content⟩

def load (s : AssetStore) (path : String) : Except AssetError ByteArray :=
  match s.assets.get? (Path.asset path) with
  | some content => .ok content
  | none => .error (.notFound path)

def contains (s : AssetStore) (path : String) : Bool := s.assets.contains (Path.asset path)

def size (s : AssetStore) : Nat := s.assets.size

end AssetStore

/-- Assets below a directory. -/
structure AssetDirectory where
  base : String
  /-- The names from the root to the directory, if it exists. -/
  canonicalBase : Option (List String)

namespace AssetDirectory

variable {m : Type → Type} [Monad m]

/-- The assets below a directory. -/
def ofPath (fs : FileSystem m) (base : String) : m AssetDirectory := do
  return ⟨base, ← fs.canonical? base⟩

/-- The path to an asset, with links followed as far as they stay below the directory. -/
def resolve? (fs : FileSystem m) (d : AssetDirectory) (path : String) : m (Option String) := do
  let relative := Path.asset path
  if Path.isConfined relative then
    let full := Path.join d.base relative
    match ← fs.canonical? full, d.canonicalBase with
    | some names, some base =>
      return if base.isPrefixOf names then some (Path.ofNames names) else none
    | _, _ => return some full
  else return none

def load (fs : FileSystem m) (d : AssetDirectory) (path : String) :
    m (Except AssetError ByteArray) := do
  match ← d.resolve? fs path with
  | none => return .error (.outsideRoot path)
  | some full =>
    match ← fs.read full with
    | .ok content => return .ok content
    | .error .notFound => return .error (.notFound path)
    | .error e => return .error (.loadFailed path e.message)

def contains (fs : FileSystem m) (d : AssetDirectory) (path : String) : m Bool := do
  match ← d.resolve? fs path with
  | none => return false
  | some full => fs.present full

end AssetDirectory

end ViewCompiler
