import ViewCompiler.Resource.Drawable
import ViewCompiler.Resource.Name
import ViewCompiler.Resource.Palette
import ViewCompiler.Text.LetterCase

/-!
# The store of values

The values of one conversion, each stored once under a name.  A value is looked up by its key; the
first request for a key makes the entry and fixes its name (`Table.request`).  Strings and fonts
become resources of one kind, so no name is in both tables.
-/

namespace ViewCompiler

/-- A stored value. -/
structure Entry (V : Type) where
  key : String
  name : String
  value : V

/-- Stored values, in order of their first request. -/
structure Table (V : Type) where
  entries : List (Entry V)

namespace Table

variable {V : Type}

def empty : Table V := ⟨[]⟩

instance : Inhabited (Table V) := ⟨empty⟩

/-- The name of a key. -/
def name? (t : Table V) (key : String) : Option String :=
  (t.entries.find? fun e => e.key == key).map Entry.name

def names (t : Table V) : List String := t.entries.map Entry.name

/-- The names with their values. -/
def pairs (t : Table V) : List (String × V) := t.entries.map fun e => (e.name, e.value)

/-- The name of a key; a new key gets the name `fresh`. -/
def request (t : Table V) (key fresh : String) (value : V) : String × Table V :=
  match t.name? key with
  | some name => (name, t)
  | none => (fresh, ⟨t.entries ++ [⟨key, fresh, value⟩]⟩)

end Table

/-- The unit of a dimension. -/
inductive DimenUnit where
  | dp
  | sp
  | px
  deriving DecidableEq, Repr

def DimenUnit.suffix : DimenUnit → String
  | dp => "dp"
  | sp => "sp"
  | px => "px"

/-- The values of one conversion. -/
structure ValueStore where
  config : NameConfig
  /-- The slug of a text, from which names are made. -/
  slug : String → String
  palette : Palette
  strings : Table String
  arrays : Table (List String)
  colors : Table Color
  fonts : Table String
  dimensions : Table String
  drawables : Table Drawable

namespace ValueStore

/-- The store without values. -/
def new (slug : String → String) (config : NameConfig) (palette : Palette) : ValueStore :=
  ⟨config, slug, palette, .empty, .empty, .empty, .empty, .empty, .empty⟩

/-- Drops all values. -/
def reset (s : ValueStore) : ValueStore := new s.slug s.config s.palette

/-- A name made from a text. -/
def nameFor (s : ValueStore) (text fallback : String) : String :=
  Name.ofSlug s.config (s.slug text) fallback

/-- The names of strings and fonts. -/
def stringNames (s : ValueStore) : List String := s.strings.names ++ s.fonts.names

/-- Stores a text. -/
def string (s : ValueStore) (text : String) : String × ValueStore :=
  let fresh := Name.claim s.stringNames (s.nameFor text "string") false
  let (name, t) := s.strings.request text fresh text
  (name, { s with strings := t })

/-- What stands between the items in the key of an array. -/
def itemSeparator : String := String.singleton (Char.ofNat 0x1f)

/-- Stores a list of texts. -/
def stringArray (s : ValueStore) (hint : String) (items : List String) : String × ValueStore :=
  let fresh := Name.claim s.arrays.names (s.nameFor (hint ++ " entries") "array") false
  let (name, t) := s.arrays.request (itemSeparator.intercalate items) fresh items
  (name, { s with arrays := t })

/-- Stores a color under the name of the nearest one of the palette, with a suffix unless it is
that color. -/
def color (s : ValueStore) (c : Color) : String × ValueStore :=
  let fresh :=
    match s.palette.nearest? c with
    | some (name, reference) =>
      Name.claim s.colors.names (s.nameFor name "color") (!reference.same c)
    | none => Name.claim s.colors.names "color" true
  let (name, t) := s.colors.request c.hex fresh c
  (name, { s with colors := t })

/-- Stores a font family; letter case and blanks around it do not matter. -/
def font (s : ValueStore) (family : String) : String × ValueStore :=
  let family := Text.trim family
  let fresh := Name.claim s.stringNames (s.nameFor ("font " ++ family) "font") false
  let (name, t) := s.fonts.request (Text.lower family) fresh family
  (name, { s with fonts := t })

/-- The name of a dimension before any suffix. -/
def dimensionName (text : String) : String :=
  "dimen_" ++ String.ofList (text.toList.flatMap fun c =>
    if c = '-' then "neg_".toList else if c = '.' then ['_'] else [c])

/-- Stores a length in a unit. -/
def dimension (s : ValueStore) (x : Scalar) (unit : DimenUnit) : String × ValueStore :=
  let text := x.text ++ unit.suffix
  let fresh := Name.claim s.dimensions.names (dimensionName text) false
  let (name, t) := s.dimensions.request text fresh text
  (name, { s with dimensions := t })

/-- Stores a drawable. -/
def drawable (s : ValueStore) (d : Drawable) : String × ValueStore :=
  let fresh := Name.claim s.drawables.names (s.nameFor d.hint "drawable") false
  let (name, t) := s.drawables.request d.key fresh d
  (name, { s with drawables := t })

/-- The drawable with a name. -/
def drawableNamed? (s : ValueStore) (name : String) : Option Drawable :=
  (s.drawables.entries.find? fun e => e.name == name).map Entry.value

end ValueStore

end ViewCompiler
