import ViewCompiler.Style.Value
import ViewCompiler.Geometry

/-!
# Reading values of style properties

A reader takes a value off the front of a text and gives the rest.  `Reader.whole` turns one into
a reader of complete property values.

* `Reader.number`, `Reader.length`, `Reader.dimension`, `Reader.verticalAlign`;
* `Reader.color`, `Reader.linearGradient`;
* `Style.readWhole`, `Style.readNormalOrLength`, `Style.readBoxShorthand` : complete values, with
  the error that names the property.
-/

namespace ViewCompiler

/-- Takes a value off the front of a text. -/
abbrev Reader (α : Type) := List Char → Option (α × List Char)

namespace Reader

variable {α β : Type}

/-! ### Combination of readers -/

def map (f : α → β) (p : Reader α) : Reader β := fun cs =>
  (p cs).map fun (a, r) => (f a, r)

/-- The first of two readers that succeeds. -/
def or (p q : Reader α) : Reader α := fun cs =>
  match p cs with
  | some x => some x
  | none => q cs

/-- The first of several readers that succeeds. -/
def firstOf : List (Reader α) → Reader α
  | [], _ => none
  | p :: ps, cs => p.or (firstOf ps) cs

/-- A reader followed by another one, whose value is dropped. -/
def followedBy (p : Reader α) (q : Reader β) : Reader α := fun cs => do
  let (a, r) ← p cs
  let (_, r) ← q r
  return (a, r)

/-- A reader after another one, whose value is dropped. -/
def after (q : Reader β) (p : Reader α) : Reader α := fun cs => do
  let (_, r) ← q cs
  p r

/-- A reader that also succeeds, and takes nothing, where `p` fails. -/
def optional (p : Reader α) : Reader (Option α) := fun cs =>
  match p cs with
  | some (a, r) => some (some a, r)
  | none => some (none, cs)

/-- One character. -/
def char (c : Char) : Reader Unit
  | [] => none
  | d :: r => if d = c then some ((), r) else none

/-- A word in any letter case; `w` is in lower case. -/
def word : List Char → Reader Unit
  | [], cs => some ((), cs)
  | _ :: _, [] => none
  | c :: w, d :: r => if d.toLower = c then word w r else none

/-- A word in any letter case that stands for a value. -/
def keyword (w : String) (a : α) : Reader α := (word w.toList).map fun _ => a

/-- Space, tab and line ends, if any. -/
def blanks : Reader Unit := fun cs => some ((), cs.dropWhile Char.isWhitespace)

/-- At least one space, tab or line end. -/
def someBlanks : Reader Unit
  | [] => none
  | c :: r => if c.isWhitespace then some ((), r.dropWhile Char.isWhitespace) else none

/-- A reader with blanks on both sides. -/
def padded (p : Reader α) : Reader α := (blanks.after p).followedBy blanks

/-- Characters that satisfy `p`, at least one. -/
def takeSome (p : Char → Bool) : Reader (List Char) := fun cs =>
  if (cs.takeWhile p).isEmpty then none else some (cs.takeWhile p, cs.dropWhile p)

/-- Further items of a list, each after a separator.  The list ends before a separator that no
item follows. -/
def moreItems (item : Reader α) (separator : Reader Unit) (cs : List Char) : List α × List Char :=
  match separator.after item cs with
  | none => ([], cs)
  | some (a, r) =>
    if _h : r.length < cs.length then
      let (as, r) := moreItems item separator r
      (a :: as, r)
    else ([], cs)
termination_by cs.length

/-- A list of at least one item. -/
def separated (item : Reader α) (separator : Reader Unit) : Reader (List α) := fun cs => do
  let (a, r) ← item cs
  let (as, r) := moreItems item separator r
  return (a :: as, r)

/-- Applies a reader to a complete text, with blanks around it. -/
def whole (p : Reader α) (cs : List Char) : Option α :=
  match padded p cs with
  | some (a, []) => some a
  | _ => none

/-! ### Numbers and lengths -/

/-- The text of a number: an optional sign, then digits with an optional fraction, or a fraction
alone. -/
def numberText : Reader (List Char) := fun cs =>
  let (sign, r) : List Char × List Char :=
    match cs with
    | '+' :: r => (['+'], r)
    | '-' :: r => (['-'], r)
    | r => ([], r)
  let (ds, r) := Decimal.spanDigits r
  match r with
  | '.' :: r' =>
    let (fs, r'') := Decimal.spanDigits r'
    if fs.isEmpty then
      if ds.isEmpty then none else some (sign ++ ds, r)
    else some (sign ++ ds ++ '.' :: fs, r'')
  | _ => if ds.isEmpty then none else some (sign ++ ds, r)

/-- A signed number such as `-12`, `0.5` or `.25`. -/
def number : Reader Scalar := fun cs => do
  let (ds, r) ← numberText cs
  let x ← (Scalar.ofChars ds).toOption
  return (x, r)

/-- The units of length and what each is in pixels. -/
def units : List (String × Scalar) :=
  [("px", 1), ("pt", 96 / 72), ("in", 96), ("cm", 96 / 2.54), ("mm", 96 / 25.4)]

def unit : Reader Scalar := firstOf (units.map fun (w, x) => keyword w x)

/-- A length in pixels; without a unit it is taken to be in pixels. -/
def length : Reader Scalar := fun cs => do
  let (x, r) ← number cs
  let (u, r) ← unit.optional r
  return (x * u.getD 1, r)

/-- A number followed by a percent sign. -/
def percentage : Reader Scalar := number.followedBy (char '%')

/-- A dimension: `auto`, a percentage or a length. -/
def dimension : Reader Dimension :=
  firstOf [keyword "auto" .auto, percentage.map .percent, length.map .px]

/-- A placing in the line: a word, a percentage or a length. -/
def verticalAlign : Reader VerticalAlign :=
  firstOf [
    keyword "baseline" .baseline, keyword "text-top" .textTop, keyword "text-bottom" .textBottom,
    keyword "top" .top, keyword "middle" .middle, keyword "bottom" .bottom, keyword "sub" .sub,
    keyword "super" .super, percentage.map .percent, length.map .length]

/-! ### Colors and gradients -/

/-- A color function with everything up to its closing parenthesis. -/
def functionToken (name : String) : Reader (List Char) := fun cs => do
  let (_, r) ← word name.toList cs
  match r.dropWhile (· != ')') with
  | ')' :: rest => return (cs.take name.length ++ r.takeWhile (· != ')') ++ [')'], rest)
  | _ => none

/-- The text of one color. -/
def colorToken : Reader (List Char) :=
  firstOf [
    functionToken "rgba(", functionToken "rgb(",
    ((char '#').after (takeSome Color.isHexDigit)).map ('#' :: ·), takeSome Char.isAlpha]

def color : Reader Color := fun cs => do
  let (token, r) ← colorToken cs
  let c ← (Color.ofText (String.ofList token)).toOption
  return (c, r)

/-- An angle in degrees, or the side to which a gradient points. -/
def angle : Reader Scalar :=
  firstOf [
    number.followedBy (word "deg".toList),
    (number.followedBy (word "turn".toList)).map (· * 360),
    (number.followedBy (word "rad".toList)).map Scalar.toDegrees,
    keyword "to top" 0, keyword "to right" 90, keyword "to bottom" 180, keyword "to left" 270]

/-- A color, with a position that is read and dropped. -/
def colorStop : Reader Color := color.followedBy (someBlanks.after dimension).optional

/-- A linear gradient; it points down unless an angle says otherwise. -/
def linearGradient : Reader Gradient := fun cs => do
  let (_, r) ← word "linear-gradient(".toList cs
  let (angle, r) ← (angle.padded.followedBy (char ',')).optional r
  let (stops, r) ← separated colorStop.padded (char ',') r
  let (_, r) ← char ')' r
  let g ← Gradient.ofStops? (angle.getD 180) stops
  return (g, r)

end Reader

/-! ### Complete values -/

/-- Why the value of a property is refused. -/
inductive StyleError where
  | invalidValue (property value : String)
  | shorthandCount (property : String) (count : Nat)
  deriving DecidableEq

def StyleError.message : StyleError → String
  | invalidValue p v => "Invalid value for '" ++ p ++ "': " ++ v
  | shorthandCount p n =>
    "Parse error: Invalid number of values for " ++ p ++ ": got " ++ toString n ++
      ", expected 1 to 4."

namespace Style

variable {α : Type}

/-- Reads the complete value of a property. -/
def readWhole (property value : String) (p : Reader α) : Except StyleError α :=
  match p.whole value.toList with
  | some a => .ok a
  | none => .error (.invalidValue property value)

/-- Reads a length or the word `normal`, in lower case. -/
def readNormalOrLength (property value : String) : Except StyleError (Option Scalar) :=
  let normal : Reader (Option Scalar) := fun cs =>
    (Text.dropLeading? "normal".toList cs).map fun r => (none, r)
  readWhole property value (normal.or (Reader.length.map some))

/-- Reads one to four lengths: all sides; vertical and horizontal ones; top, horizontal ones and
bottom; or each side from the top clockwise. -/
def readBoxShorthand (property value : String) : Except StyleError Edges := do
  match ← readWhole property value (Reader.separated Reader.length Reader.someBlanks) with
  | [a] => .ok (.all a)
  | [v, h] => .ok ⟨v, h, v, h⟩
  | [t, h, b] => .ok ⟨t, h, b, h⟩
  | [t, r, b, l] => .ok ⟨t, r, b, l⟩
  | ls => .error (.shorthandCount property ls.length)

end Style

end ViewCompiler
