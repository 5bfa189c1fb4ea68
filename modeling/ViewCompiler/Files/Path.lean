import ViewCompiler.Text.Blank

/-!
# Paths

Paths of files as texts, with slashes between their components.

* `Path.components` : the components of a path;
* `Path.isConfined` : whether a path stays below the place that it is relative to;
* `Path.asset` : the path by which an asset is known.
-/

namespace ViewCompiler

namespace Path

/-- A component of a path. -/
inductive Component where
  | root
  | current
  | parent
  | name (text : String)
  deriving DecidableEq

/-- The component between two slashes.  Nothing and one point stay where they are. -/
def Component.ofChars : List Char → Component
  | [] | ['.'] => .current
  | ['.', '.'] => .parent
  | cs => .name (String.ofList cs)

def isAbsolute (path : String) : Bool := path.toList.head? == some '/'

/-- All components between slashes, with those that stay where they are. -/
def steps (path : String) : List Component :=
  let parts := (Text.pieces (· == '/') path.toList).map Component.ofChars
  if isAbsolute path then .root :: parts else parts

/-- The components of a path.  Those that stay where they are are left out, except for one point in
front. -/
def components (path : String) : List Component :=
  let dotted :=
    match path.toList with
    | ['.'] | '.' :: '/' :: _ => [Component.current]
    | _ => []
  dotted ++ (steps path).filter (· ≠ .current)

/-- Whether a path stays below the place that it is relative to: it is not absolute and takes no
step upwards. -/
def isConfined (path : String) : Bool :=
  !isAbsolute path && (components path).all fun c => c ≠ .root && c ≠ .parent

/-- Whether a path is one name below the place that it is relative to. -/
def isSingle (path : String) : Bool := isConfined path && (components path).length == 1

/-- Drops steps in front that stay where they are. -/
def dropCurrent : List Char → List Char
  | '.' :: '/' :: r => dropCurrent r
  | cs => cs

/-- The path by which an asset is known: without blanks around it and without `./` in front. -/
def asset (path : String) : String := String.ofList (dropCurrent (Text.trimChars path.toList))

/-- A path relative to a base. -/
def join (base path : String) : String :=
  if isAbsolute path || base.isEmpty then path
  else if base.toList.getLast? == some '/' then base ++ path
  else base ++ "/" ++ path

/-- The absolute path with given names. -/
def ofNames (names : List String) : String := "/" ++ "/".intercalate names

def Component.text : Component → String
  | root => ""
  | current => "."
  | parent => ".."
  | name text => text

/-- The path to the directory of the last component. -/
def parent? (path : String) : Option String :=
  match (components path).reverse with
  | [] | .root :: _ => none
  | [_, .root] => some "/"
  | _ :: r => some ("/".intercalate (r.reverse.map Component.text))

end Path

end ViewCompiler
