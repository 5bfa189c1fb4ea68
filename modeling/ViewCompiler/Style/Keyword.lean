import ViewCompiler.Json
import ViewCompiler.Text.Blank
import ViewCompiler.Text.LetterCase
import ViewCompiler.Text.Integer

/-!
# Properties with a few values

The style properties whose value is one of a few words.  `Keyword` gives such a type its words and
its initial value; `Keyword.ofText` reads a word in any letter case, with blanks around it.

The predicates on the values are those that decide how a box takes part in the flow of a document.
-/

namespace ViewCompiler

/-- A property whose values are named by words. -/
class Keyword (α : Type) where
  /-- The name of the property in messages. -/
  label : String
  /-- The value of a property that is not set. -/
  initial : α
  /-- Each value with its name. -/
  names : List (String × α)
  /-- Other words that stand for a value. -/
  aliases : List (String × α) := []
  /-- Each value with its name in structured values. -/
  written : List (String × α) := names

/-- A text that names no value of a property. -/
structure KeywordError where
  label : String
  text : String
  deriving DecidableEq

def KeywordError.message (e : KeywordError) : String :=
  "Invalid " ++ e.label ++ ": '" ++ e.text ++ "'"

namespace Keyword

variable {α : Type} [Keyword α]

/-- The word that a text consists of, in lower case. -/
def wordOf (s : String) : String := Text.lower (Text.trim s)

/-- Reads a value. -/
def ofText (s : String) : Except KeywordError α :=
  match (names ++ aliases).lookup (wordOf s) with
  | some a => .ok a
  | none => .error ⟨label α, s⟩

/-- The name of a value in structured values. -/
def name [DecidableEq α] (a : α) : String :=
  ((written.find? fun e => decide (e.2 = a)).map Prod.fst).getD ""

/-- Reads a value from its name, which may also be the only key of an object. -/
def ofJson? (j : Json) : Option α :=
  match j with
  | .string s => s.bind fun s => written.lookup s
  | j =>
    match j.single? with
    | some (k, .null) => written.lookup k
    | _ => none

end Keyword

/-! ### Boxes in the flow -/

inductive Display where
  | block
  | inline
  | inlineBlock
  | flex
  | inlineFlex
  | grid
  | inlineGrid
  | table
  | inlineTable
  | tableRow
  | tableCell
  | listItem
  /-- The box makes no box of its own; its children belong to the run of its parent. -/
  | contents
  | none
  deriving DecidableEq, Repr

namespace Display

instance : Keyword Display where
  label := "display"
  initial := .inline
  names := [
    ("block", .block), ("inline", .inline), ("inline-block", .inlineBlock), ("flex", .flex),
    ("inline-flex", .inlineFlex), ("grid", .grid), ("inline-grid", .inlineGrid), ("table", .table),
    ("inline-table", .inlineTable), ("table-row", .tableRow), ("table-cell", .tableCell),
    ("list-item", .listItem), ("contents", .contents), ("none", .none)]
  aliases := [
    ("block flow", .block), ("block flow-root", .block), ("flow-root", .block),
    ("inline flow", .inline), ("inline flow-root", .inlineBlock), ("block flex", .flex),
    ("inline flex", .inlineFlex), ("block grid", .grid), ("inline grid", .inlineGrid)]

def isInlineLevel : Display → Bool
  | inline | inlineBlock | inlineFlex | inlineGrid | inlineTable => true
  | _ => false

def isBlockLevel : Display → Bool
  | block | flex | grid | table | tableRow | listItem => true
  | _ => false

/-- Boxes whose children lie on a grid of two dimensions. -/
def isGridLike : Display → Bool
  | grid | inlineGrid | table | inlineTable => true
  | _ => false

end Display

inductive Position where
  | static
  | relative
  | absolute
  | fixed
  | sticky
  deriving DecidableEq, Repr

namespace Position

instance : Keyword Position where
  label := "position"
  initial := .static
  names := [("static", .static), ("relative", .relative), ("absolute", .absolute),
    ("fixed", .fixed), ("sticky", .sticky)]
  aliases := [("-webkit-sticky", .sticky)]

/-- Absolute and fixed boxes leave the flow. -/
def isOutOfFlow : Position → Bool
  | absolute | fixed => true
  | _ => false

end Position

/-- The side to which a box floats. -/
inductive FloatSide where
  | none
  | left
  | right
  deriving DecidableEq, Repr

namespace FloatSide

instance : Keyword FloatSide where
  label := "float"
  initial := .none
  names := [("none", .none), ("left", .left), ("right", .right)]
  aliases := [("inline-start", .left), ("inline-end", .right)]

def isFloating (s : FloatSide) : Bool := s != .none

end FloatSide

/-- The floats that a box moves below. -/
inductive Clear where
  | none
  | left
  | right
  | both
  deriving DecidableEq, Repr

namespace Clear

instance : Keyword Clear where
  label := "clear"
  initial := .none
  names := [("none", .none), ("left", .left), ("right", .right), ("both", .both)]
  aliases := [("inline-start", .left), ("inline-end", .right)]

def isClearing (c : Clear) : Bool := c != .none

def clearsLeft (c : Clear) : Bool := c == .left || c == .both

def clearsRight (c : Clear) : Bool := c == .right || c == .both

end Clear

inductive TextAlign where
  | start
  | left
  | right
  | center
  | justify
  | «end»
  deriving DecidableEq, Repr

instance : Keyword TextAlign where
  label := "text-align"
  initial := .start
  names := [("start", .start), ("left", .left), ("right", .right), ("center", .center),
    ("justify", .justify), ("end", .end)]
  aliases := [("-webkit-auto", .start), ("-webkit-left", .left), ("-webkit-right", .right),
    ("-webkit-center", .center)]

inductive Direction where
  | ltr
  | rtl
  deriving DecidableEq, Repr

instance : Keyword Direction where
  label := "direction"
  initial := .ltr
  names := [("ltr", .ltr), ("rtl", .rtl)]

inductive Visibility where
  | visible
  | hidden
  | collapse
  deriving DecidableEq, Repr

instance : Keyword Visibility where
  label := "visibility"
  initial := .visible
  names := [("visible", .visible), ("hidden", .hidden), ("collapse", .collapse)]

inductive FlexDirection where
  | row
  | rowReverse
  | column
  | columnReverse
  deriving DecidableEq, Repr

namespace FlexDirection

instance : Keyword FlexDirection where
  label := "flex direction"
  initial := .row
  names := [("row", .row), ("row-reverse", .rowReverse), ("column", .column),
    ("column-reverse", .columnReverse)]

/-- Whether the boxes are shown against the order of the source. -/
def isReversed : FlexDirection → Bool
  | rowReverse | columnReverse => true
  | _ => false

end FlexDirection

/-! ### Fonts -/

inductive FontStyle where
  | normal
  | italic
  | oblique
  deriving DecidableEq, Repr

namespace FontStyle

instance : Keyword FontStyle where
  label := "font style"
  initial := .normal
  names := [("normal", .normal), ("italic", .italic), ("oblique", .oblique)]
  written := [("Normal", .normal), ("Italic", .italic), ("Oblique", .oblique)]

/-- Reads a style; `oblique` may be followed by anything, such as an angle. -/
def ofText (s : String) : Except KeywordError FontStyle :=
  if (Text.dropLeading? "oblique".toList (Keyword.wordOf s).toList).isSome then .ok .oblique
  else Keyword.ofText s

def isSlanted (s : FontStyle) : Bool := s != .normal

end FontStyle

inductive FontWeight where
  | thin
  | light
  | regular
  | medium
  | bold
  | black
  | numeric (weight : Nat)
  deriving DecidableEq, Repr

namespace FontWeight

instance : Keyword FontWeight where
  label := "font weight"
  initial := .regular
  names := [("thin", .thin), ("light", .light), ("regular", .regular), ("medium", .medium),
    ("bold", .bold), ("black", .black)]
  aliases := [("lighter", .light), ("normal", .regular), ("bolder", .bold)]
  written := [("Thin", .thin), ("Light", .light), ("Regular", .regular), ("Medium", .medium),
    ("Bold", .bold), ("Black", .black)]

/-- The weight on the scale from 100 to 900. -/
def value : FontWeight → Nat
  | thin => 100
  | light => 300
  | regular => 400
  | medium => 500
  | bold => 700
  | black => 900
  | numeric n => n

/-- From semi-bold on a weight is shown as bold. -/
def isBold (w : FontWeight) : Bool := 600 ≤ w.value

/-- Reads a weight: a word or a number in sixteen bits. -/
def ofText (s : String) : Except KeywordError FontWeight :=
  match Text.natBelow? (twoPow 16) (Keyword.wordOf s) with
  | some n => .ok (.numeric n)
  | none => Keyword.ofText s

/-- Reads a weight from a text or a number. -/
def ofJson? (j : Json) : Option FontWeight :=
  match j with
  | .string s => s.bind fun s => (ofText s).toOption
  | j => (j.natBelow? (twoPow 16)).map numeric

end FontWeight

end ViewCompiler
