import ViewCompiler.Files.Path
import ViewCompiler.Files.System

/-!
# Trees of files

A file system held in memory, with directories and symbolic links.

* `FileTree.walk` : where a path leads to;
* `FileTree.read`, `FileTree.write`, `FileTree.makeDirectories` : the operations;
* `FileTree.ofFiles`, `FileTree.filesBelow` : a tree from files, and the files in it;
* `FileTree.system` : the tree as a file system.
-/

namespace ViewCompiler

inductive FileEntry where
  | directory
  | file (content : ByteArray)
  | link (target : String)

/-- Entries by their names from the root, and the directory that relative paths start from. -/
structure FileTree where
  entries : List (List String × FileEntry)
  working : List String

namespace FileTree

/-- The entry with given names; the root is a directory. -/
def get? (t : FileTree) (names : List String) : Option FileEntry :=
  if names.isEmpty then some .directory
  else (t.entries.find? fun e => e.1 == names).map Prod.snd

/-- Puts an entry in the place of another one with the same names. -/
def insert (t : FileTree) (names : List String) (e : FileEntry) : FileTree :=
  { t with entries := (t.entries.filter fun e => e.1 != names) ++ [(names, e)] }

def isDirectory (t : FileTree) (names : List String) : Bool :=
  match t.get? names with
  | some .directory => true
  | _ => false

/-! ### Walks -/

/-- The most links that are followed on a walk. -/
def maxLinks : Nat := 40

/-- Whether a name is longer than a directory can hold. -/
def isTooLong (name : String) : Bool := name.utf8ByteSize > 255

def notADirectory : FileError := .other "Not a directory"

def isADirectory : FileError := .other "Is a directory"

def nameTooLong : FileError := .other "File name too long"

def tooManyLinks : FileError := .other "Too many levels of symbolic links"

/-- How far a walk comes without following a link. -/
inductive Advance where
  | arrived (names : List String)
  | met (directory : List String) (target : String) (rest : List Path.Component)
  | failed (e : FileError)

/-- Walks from a place up to the first link. -/
def advance (t : FileTree) : List String → List Path.Component → Advance
  | place, [] => .arrived place
  | _, .root :: r => t.advance [] r
  | place, .current :: r => if t.isDirectory place then t.advance place r else .failed notADirectory
  | place, .parent :: r =>
    if t.isDirectory place then t.advance place.dropLast r else .failed notADirectory
  | place, .name n :: r =>
    if !t.isDirectory place then .failed notADirectory
    else if isTooLong n then .failed nameTooLong
    else
      match t.get? (place ++ [n]) with
      | none => .failed .notFound
      | some (.link target) => .met place target r
      | some _ => t.advance (place ++ [n]) r

/-- Walks from a place, following at most as many links as given. -/
def walkFrom (t : FileTree) : Nat → List String → List Path.Component →
    Except FileError (List String)
  | links, place, steps =>
    match t.advance place steps, links with
    | .arrived names, _ => .ok names
    | .failed e, _ => .error e
    | .met .., 0 => .error tooManyLinks
    | .met directory target rest, links + 1 =>
      t.walkFrom links directory (Path.steps target ++ rest)

/-- The steps of a path, if it is one. -/
def stepsOf (path : String) : Except FileError (List Path.Component) :=
  if path.isEmpty then .error .notFound
  else if path.toList.contains (Char.ofNat 0) then .error (.other "Invalid path")
  else .ok (Path.steps path)

/-- The names from the root to what a path leads to. -/
def walk (t : FileTree) (path : String) : Except FileError (List String) := do
  t.walkFrom maxLinks t.working (← stepsOf path)

/-! ### Operations -/

def read (t : FileTree) (path : String) : Except FileError ByteArray := do
  match t.get? (← t.walk path) with
  | some (.file content) => .ok content
  | _ => .error isADirectory

/-- Makes the directories on a way from a place. -/
def makeDirectoriesFrom (t : FileTree) : List String → List Path.Component →
    Except FileError FileTree
  | _, [] => .ok t
  | place, step :: r =>
    match t.walkFrom maxLinks place [step], step with
    | .ok names, _ =>
      if t.isDirectory names then t.makeDirectoriesFrom names r else .error notADirectory
    | .error .notFound, .name n =>
      match t.get? (place ++ [n]) with
      | none => (t.insert (place ++ [n]) .directory).makeDirectoriesFrom (place ++ [n]) r
      | some _ => .error (.other "File exists")
    | .error e, _ => .error e

def makeDirectories (t : FileTree) (path : String) : Except FileError FileTree := do
  if path.isEmpty then return t
  t.makeDirectoriesFrom t.working (← stepsOf path)

/-- Writes a file on a way from a place, following at most as many links as given. -/
def writeFrom (t : FileTree) (content : ByteArray) : Nat → List String → List Path.Component →
    Except FileError FileTree
  | links, place, steps => do
    let directory ← t.walkFrom maxLinks place steps.dropLast
    if !t.isDirectory directory then throw notADirectory
    match steps.getLast? with
    | some (.name n) =>
      if isTooLong n then throw nameTooLong
      match t.get? (directory ++ [n]), links with
      | some .directory, _ => throw isADirectory
      | some (.link target), links + 1 => t.writeFrom content links directory (Path.steps target)
      | some (.link _), 0 => throw tooManyLinks
      | _, _ => return t.insert (directory ++ [n]) (.file content)
    | _ => throw isADirectory

def write (t : FileTree) (path : String) (content : ByteArray) : Except FileError FileTree := do
  t.writeFrom content maxLinks t.working (← stepsOf path)

/-- Puts an entry at a path, and makes the directories that it is in. -/
def put (t : FileTree) (path : String) (e : FileEntry) : FileTree :=
  let names := (Path.components (Path.join (Path.ofNames t.working) path)).filterMap fun
    | .name n => some n
    | _ => none
  let t := (t.makeDirectoriesFrom [] (names.dropLast.map .name)).toOption.getD t
  t.insert names e

/-- The tree with some entries, by their paths from the working directory. -/
def ofFiles (files : List (String × FileEntry)) (working : List String) : FileTree :=
  let t : FileTree := ⟨[], working⟩
  let t := (t.makeDirectoriesFrom [] (working.map .name)).toOption.getD t
  files.foldl (fun t (path, e) => t.put path e) t

/-- The files below a directory, by their paths from there. -/
def filesBelow (t : FileTree) (directory : List String) : List (String × ByteArray) :=
  t.entries.filterMap fun
    | (names, .file content) =>
      if directory.isPrefixOf names ∧ directory ≠ names then
        some ("/".intercalate (names.drop directory.length), content)
      else none
    | _ => none

/-- The outcome of a change, and the tree after it. -/
def changed (t : FileTree) : Except FileError FileTree → Except FileError Unit × FileTree
  | .ok t' => (.ok (), t')
  | .error e => (.error e, t)

/-- The tree as a file system. -/
def system : FileSystem (StateM FileTree) where
  read path t := (t.read path, t)
  canonical? path t := ((t.walk path).toOption, t)
  present path t := ((t.walk path).toOption.isSome, t)
  makeDirectories path t := t.changed (t.makeDirectories path)
  write path content t := t.changed (t.write path content)

end FileTree

end ViewCompiler
