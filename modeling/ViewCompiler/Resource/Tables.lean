import ViewCompiler.Resource.Sharing
import ViewCompiler.Resource.Store

/-!
# Tables of resources

All named resources of a conversion, each table sorted by name without regard to letter case, and
the files they are written to.
-/

namespace ViewCompiler

structure ResourceTables where
  strings : List (String × String)
  arrays : List (String × List String)
  colors : List (String × String)
  dimens : List (String × String)
  fonts : List (String × String)
  styles : List StyleEntry
  drawables : List (String × Drawable)

namespace ResourceTables

def empty : ResourceTables := ⟨[], [], [], [], [], [], []⟩

instance : Inhabited ResourceTables := ⟨empty⟩

/-! ### Collection -/

/-- Orders names without regard to letter case, then with it. -/
def nameLE (a b : String) : Bool :=
  ((compare (Text.lower a) (Text.lower b)).then (compare a b)).isLE

/-- Entries in the order of their names. -/
def sorted {V : Type} (l : List (String × V)) : List (String × V) :=
  stableSort (fun a b => nameLE a.1 b.1) l

/-- The tables of a store and a list of styles. -/
def collect (store : ValueStore) (styles : List StyleEntry) : ResourceTables where
  strings := sorted store.strings.pairs
  arrays := sorted store.arrays.pairs
  colors := sorted (store.colors.pairs.map fun (n, c) => (n, c.hex))
  dimens := sorted store.dimensions.pairs
  fonts := sorted store.fonts.pairs
  styles := stableSort (fun a b => nameLE a.name b.name) styles
  drawables := sorted store.drawables.pairs

def isEmpty (t : ResourceTables) : Bool :=
  t.strings.isEmpty && t.arrays.isEmpty && t.colors.isEmpty && t.dimens.isEmpty &&
    t.fonts.isEmpty && t.styles.isEmpty && t.drawables.isEmpty

/-! ### Files -/

/-- Escapes what the platform reads specially in a string: backslashes, quotes and line ends
anywhere, and the two marks of a reference in front. -/
def escapeString (s : String) : String :=
  let inner (c : Char) : List Char :=
    if c = '\\' ∨ c = '\'' ∨ c = '"' then ['\\', c]
    else if c = '\n' then ['\\', 'n']
    else [c]
  match s.toList with
  | [] => ""
  | c :: r =>
    let first := if c = '@' ∨ c = '?' then ['\\', c] else inner c
    String.ofList (first ++ r.flatMap inner)

/-- A file of resources. -/
def resources (children : List Xml.Element) : String :=
  Xml.document (.nested "resources" [] children)

/-- A table of plain values. -/
def simple (tag : String) (more : List (String × String)) (entries : List (String × String)) :
    String :=
  resources (entries.map fun (n, v) => .text tag (("name", n) :: more) v)

def stringsXml (t : ResourceTables) : String :=
  resources (t.strings.map fun (n, v) => .text "string" [("name", n)] (escapeString v))

def arraysXml (t : ResourceTables) : String :=
  resources (t.arrays.map fun (n, items) =>
    .nested "string-array" [("name", n)]
      (items.map fun item => .text "item" [] (escapeString item)))

def stylesXml (t : ResourceTables) : String :=
  resources (t.styles.map fun s =>
    .nested "style" (("name", s.name) :: (s.parent.toList.map fun p => ("parent", p)))
      (s.attributes.map fun (k, v) => .text "item" [("name", k)] v))

/-- The files of the tables that are not empty, with their names. -/
def valueFiles (t : ResourceTables) : List (String × String) :=
  let file (present : Bool) (name content : String) : List (String × String) :=
    if present then [(name, content)] else []
  file (!t.strings.isEmpty) "strings.xml" t.stringsXml ++
    file (!t.arrays.isEmpty) "arrays.xml" t.arraysXml ++
    file (!t.colors.isEmpty) "colors.xml" (simple "color" [] t.colors) ++
    file (!t.dimens.isEmpty) "dimens.xml" (simple "dimen" [] t.dimens) ++
    file (!t.fonts.isEmpty) "fonts.xml" (simple "string" [("translatable", "false")] t.fonts) ++
    file (!t.styles.isEmpty) "styles.xml" t.stylesXml

/-- The files of the drawables that have one, with their names. -/
def drawableFiles (t : ResourceTables) : List (String × String) :=
  t.drawables.filterMap fun (n, d) => d.xml?.map fun xml => (n ++ ".xml", xml)

end ResourceTables

end ViewCompiler
