import ViewCompiler.SortedMap
import ViewCompiler.Style.Reader

/-!
# Computed styles

The style of one box: its properties as texts, read on demand.

* `Style.ofMap` : names in lower case, blanks around names and values taken off;
* `Style.sanitize` : drops every known property with a value it cannot have, and reports each;
* the accessors : they never fail; a value that is missing or cannot be read counts as the initial
  value of its property.
-/

namespace ViewCompiler

/-- The properties of a box. -/
structure Style where
  properties : SortedMap String String
  deriving DecidableEq

namespace Style

def empty : Style := ⟨.empty⟩

instance : Inhabited Style := ⟨empty⟩

/-- The style of a map of properties. -/
def ofMap (m : SortedMap String String) : Style :=
  ⟨.ofList (m.entries.map fun (k, v) => (Text.asciiLower (Text.trim k), Text.trim v))⟩

def get? (s : Style) (property : String) : Option String := s.properties.get? property

def set (s : Style) (property value : String) : Style := ⟨s.properties.insert property value⟩

def remove (s : Style) (property : String) : Style := ⟨s.properties.erase property⟩

def isEmpty (s : Style) : Bool := s.properties.isEmpty

/-! ### Checks -/

section Checks

variable {ε α : Type}

/-- Whether a reading succeeds. -/
def accepts : Except ε α → Bool
  | .ok _ => true
  | .error _ => false

def isKeyword (α : Type) [Keyword α] (v : String) : Bool :=
  accepts (Keyword.ofText v : Except KeywordError α)

def isWhole (p : Reader α) (v : String) : Bool := (p.whole v.toList).isSome

end Checks

/-- A word `auto` or a whole number in thirty-two bits. -/
def isIntegerOrAuto (v : String) : Bool :=
  Text.trim v == "auto" || (Text.intWithin? (twoPow 31) (Text.trim v)).isSome

/-- The properties that are interpreted, with what their values must satisfy. -/
def known : List (String × (String → Bool)) := [
  ("display", isKeyword Display),
  ("position", isKeyword Position),
  ("float", isKeyword FloatSide),
  ("clear", isKeyword Clear),
  ("vertical-align", isWhole Reader.verticalAlign),
  ("text-align", isKeyword TextAlign),
  ("direction", isKeyword Direction),
  ("visibility", isKeyword Visibility),
  ("flex-direction", isKeyword FlexDirection),
  ("font-weight", fun v => accepts (FontWeight.ofText v)),
  ("font-style", fun v => accepts (FontStyle.ofText v)),
  ("font-size", isWhole Reader.length),
  ("line-height", fun v => accepts (readNormalOrLength "line-height" v)),
  ("color", fun v => accepts (Color.ofText v)),
  ("background-color", fun v => accepts (Color.ofText v)),
  ("border-color", fun v => accepts (Color.ofText v)),
  ("border-radius", isWhole Reader.length),
  ("width", isWhole Reader.dimension),
  ("height", isWhole Reader.dimension),
  ("top", isWhole Reader.dimension),
  ("left", isWhole Reader.dimension),
  ("z-index", isIntegerOrAuto),
  ("column-count", isIntegerOrAuto),
  ("opacity", fun v => accepts (Scalar.ofText (Text.trim v)))]

/-- Drops the known properties whose values fail their check, with an error for each, in the order
of `known`. -/
def sanitize (s : Style) : Style × List StyleError :=
  known.foldl (fun (s, errors) (property, check) =>
    match s.get? property with
    | some v =>
      if check v then (s, errors)
      else (s.remove property, errors ++ [.invalidValue property v])
    | none => (s, errors)) (s, [])

/-! ### Reading of properties -/

section Accessors

variable {ε α : Type}

/-- The value of a property as `read` reads it. -/
def read? (s : Style) (property : String) (read : String → Except ε α) : Option α :=
  (s.get? property).bind fun v => (read v).toOption

/-- The value of a property with a few values. -/
def keyword [Keyword α] (s : Style) (property : String) : α :=
  (s.read? property Keyword.ofText).getD Keyword.initial

/-- The value of a property as a reader reads it completely. -/
def whole? (s : Style) (property : String) (p : Reader α) : Option α :=
  (s.get? property).bind fun v => p.whole v.toList

end Accessors

/-! ### Flow -/

def display (s : Style) : Display := s.keyword "display"

def position (s : Style) : Position := s.keyword "position"

def float (s : Style) : FloatSide := s.keyword "float"

def clear (s : Style) : Clear := s.keyword "clear"

def verticalAlign (s : Style) : VerticalAlign :=
  (s.whole? "vertical-align" Reader.verticalAlign).getD .baseline

def textAlign (s : Style) : TextAlign := s.keyword "text-align"

def direction (s : Style) : Direction := s.keyword "direction"

def visibility (s : Style) : Visibility := s.keyword "visibility"

def flexDirection (s : Style) : FlexDirection := s.keyword "flex-direction"

def dimension (s : Style) (property : String) : Dimension :=
  (s.whole? property Reader.dimension).getD .auto

def width (s : Style) : Dimension := s.dimension "width"

def height (s : Style) : Dimension := s.dimension "height"

def top (s : Style) : Dimension := s.dimension "top"

/-- The place in the stack; `auto` counts as `0`. -/
def zIndex (s : Style) : Int := ((s.get? "z-index").bind (Text.intWithin? (twoPow 31))).getD 0

/-- The number of columns; `auto` counts as `1`. -/
def columnCount (s : Style) : Nat :=
  ((s.get? "column-count").bind (Text.natBelow? (twoPow 32))).getD 1

/-- The margin, if any side of it is set. -/
def margin (s : Style) : Option Edges :=
  let side (name : String) : Option Scalar := s.whole? ("margin-" ++ name) Reader.length
  match side "top", side "right", side "bottom", side "left" with
  | none, none, none, none => none
  | t, r, b, l => some ⟨t.getD 0, r.getD 0, b.getD 0, l.getD 0⟩

/-! ### Text -/

def isQuote (c : Char) : Bool := c == '"' || c == '\''

/-- The first font family, without quotes. -/
def fontFamily (s : Style) : Option String := do
  let v ← s.get? "font-family"
  let first := Text.strip isQuote (Text.trimChars (v.toList.takeWhile (· != ',')))
  if first.isEmpty then none else return String.ofList first

def fontSize (s : Style) : Option Scalar := s.whole? "font-size" Reader.length

def fontWeight (s : Style) : FontWeight :=
  (s.read? "font-weight" FontWeight.ofText).getD Keyword.initial

def fontStyle (s : Style) : FontStyle :=
  (s.read? "font-style" FontStyle.ofText).getD Keyword.initial

/-- The height of a line: as set, or 1.2 times the size of the font. -/
def lineHeight (s : Style) : Scalar :=
  ((s.read? "line-height" (readNormalOrLength "line-height")).getD none).getD
    (s.fontSize.getD 16 * 1.2)

/-! ### Paint -/

/-- The opacity, between `0` and `1`. -/
def opacity (s : Style) : Scalar :=
  ((s.read? "opacity" Scalar.ofText).map (Scalar.clamp 0 1)).getD 1

def color (s : Style) : Option Color := s.read? "color" Color.ofText

/-- A color that can be seen. -/
def visibleColor (s : Style) (property : String) : Option Color :=
  (s.read? property Color.ofText).filter fun c => !c.isTransparent

def backgroundColor (s : Style) : Option Color := s.visibleColor "background-color"

def borderColor (s : Style) : Option Color := s.visibleColor "border-color"

def backgroundGradient (s : Style) : Option Gradient :=
  s.whole? "background-image" Reader.linearGradient

/-- The target of a background `url(…)`, without quotes. -/
def backgroundImage (s : Style) : Option String := do
  let v ← s.get? "background-image"
  let inner ← Text.dropLeading? "url(".toList (Text.trimChars v.toList)
  let inner ← Text.dropTrailing? [')'] inner
  let target := Text.strip isQuote (Text.trimChars inner)
  if target.isEmpty then none else return String.ofList target

def borderRadius (s : Style) : Scalar := (s.whole? "border-radius" Reader.length).getD 0

end Style

end ViewCompiler
