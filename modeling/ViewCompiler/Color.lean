import ViewCompiler.Scalar.Decimal
import ViewCompiler.Text.Blank
import ViewCompiler.Json

/-!
# Colors

Colors with an opacity, their text forms and the distance between them.

* `Color.ofText` : hexadecimal forms, `rgb(…)` and `rgba(…)`, `transparent` and the basic names;
* `Color.hex` : the text of a color in a resource, with the opacity in front unless it is full;
* `Color.withOpacity`, `Color.distanceSq`.
-/

namespace ViewCompiler

structure Color where
  red : UInt8
  green : UInt8
  blue : UInt8
  alpha : Scalar
  deriving DecidableEq

/-- Why a text is not a color. -/
inductive ColorError where
  | hexDigits (text : String)
  | hexLength (length : Nat)
  | unterminated (body : String)
  | componentCount (count : Nat)
  | component (text : String) (cause : NumberError)
  | alpha (text : String) (cause : NumberError)
  | unrecognised (text : String)
  deriving DecidableEq

def ColorError.message : ColorError → String
  | hexDigits s => "Invalid hex color: " ++ s
  | hexLength n => "Invalid hex color length: expected 3, 6 or 8, got " ++ toString n
  | unterminated s => "Unterminated color function: " ++ s
  | componentCount n =>
    "Invalid color function: expected 3 or 4 components, got " ++ toString n
  | component s e => "Invalid color component '" ++ s ++ "': " ++ e.message
  | alpha s e => "Invalid alpha '" ++ s ++ "': " ++ e.message
  | unrecognised s => "Unrecognised color value: " ++ s

namespace Color

def rgb (r g b : UInt8) : Color := ⟨r, g, b, 1⟩

/-- A color whose opacity is brought between `0` and `1`. -/
def rgba (r g b : UInt8) (a : Scalar) : Color := ⟨r, g, b, Scalar.clamp 0 1 a⟩

def gray (v : UInt8) : Color := rgb v v v

def black : Color := rgb 0 0 0

def transparent : Color := ⟨0, 0, 0, 0⟩

instance : Inhabited Color := ⟨black⟩

def isOpaque (c : Color) : Bool := c.alpha ≥ 1

def isTransparent (c : Color) : Bool := c.alpha ≤ 0

/-- Equality by the channels and the opacity as numbers. -/
def same (c d : Color) : Bool :=
  c.red == d.red && c.green == d.green && c.blue == d.blue && c.alpha == d.alpha

/-- The opacity as a byte. -/
def alphaByte (c : Color) : UInt8 :=
  Scalar.toByte (Scalar.round (Scalar.clamp 0 1 c.alpha * 255))

/-- Folds another opacity into the color. -/
def withOpacity (c : Color) (f : Scalar) : Color :=
  ⟨c.red, c.green, c.blue, Scalar.clamp 0 1 (c.alpha * f)⟩

/-- The square of a difference of two channels. -/
def channelSq (a b : UInt8) : Nat :=
  let d := (a.toNat : Int) - b.toNat
  (d * d).natAbs

/-- The square of the distance of two colors, opacity apart. -/
def distanceSq (c d : Color) : Nat :=
  channelSq c.red d.red + channelSq c.green d.green + channelSq c.blue d.blue

/-! ### Writing -/

/-- The two hexadecimal digits of a byte, in upper case. -/
def byteHex (b : UInt8) : List Char :=
  let digit (n : Nat) : Char := (Nat.digitChar n).toUpper
  [digit (b.toNat / 16), digit (b.toNat % 16)]

/-- `#RRGGBB`. -/
def rgbHex (c : Color) : String :=
  String.ofList ('#' :: (byteHex c.red ++ byteHex c.green ++ byteHex c.blue))

/-- `#RRGGBB`, or `#AARRGGBB` for a color that is not opaque. -/
def hex (c : Color) : String :=
  if c.isOpaque then c.rgbHex
  else
    String.ofList
      ('#' :: (byteHex c.alphaByte ++ byteHex c.red ++ byteHex c.green ++ byteHex c.blue))

/-! ### Reading -/

/-- Basic color names. -/
def named : List (String × Color) := [
  ("black", rgb 0 0 0), ("white", rgb 255 255 255), ("red", rgb 255 0 0), ("green", rgb 0 128 0),
  ("blue", rgb 0 0 255), ("gray", rgb 128 128 128), ("grey", rgb 128 128 128),
  ("silver", rgb 192 192 192), ("maroon", rgb 128 0 0), ("yellow", rgb 255 255 0),
  ("olive", rgb 128 128 0), ("lime", rgb 0 255 0), ("aqua", rgb 0 255 255),
  ("teal", rgb 0 128 128), ("navy", rgb 0 0 128), ("fuchsia", rgb 255 0 255),
  ("purple", rgb 128 0 128), ("orange", rgb 255 165 0)]

/-- The value of a hexadecimal digit; `0` for any other character. -/
def hexValue (c : Char) : Nat :=
  if c.isDigit then c.toNat - '0'.toNat
  else if 'a' ≤ c ∧ c ≤ 'f' then c.toNat - 'a'.toNat + 10
  else if 'A' ≤ c ∧ c ≤ 'F' then c.toNat - 'A'.toNat + 10
  else 0

def isHexDigit (c : Char) : Bool :=
  c.isDigit || decide ('a' ≤ c ∧ c ≤ 'f') || decide ('A' ≤ c ∧ c ≤ 'F')

/-- The byte of two hexadecimal digits. -/
def hexByte (a b : Char) : UInt8 := UInt8.ofNat (16 * hexValue a + hexValue b)

/-- Reads what follows the `#` in `text`: one or two digits for each channel, and two for the
opacity. -/
def ofHexDigits (text : String) (ds : List Char) : Except ColorError Color :=
  if !ds.all isHexDigit then .error (.hexDigits text)
  else
    match ds with
    | [r, g, b] => .ok (rgb (hexByte r r) (hexByte g g) (hexByte b b))
    | [r, r', g, g', b, b'] => .ok (rgb (hexByte r r') (hexByte g g') (hexByte b b'))
    | [r, r', g, g', b, b', a, a'] =>
      .ok (rgba (hexByte r r') (hexByte g g') (hexByte b b') (Scalar.ofByte (hexByte a a') / 255))
    | _ => .error (.hexLength ds.length)

/-- The components between commas, slashes and spaces. -/
def components (cs : List Char) : List (List Char) :=
  ((Text.pieces (fun c => c == ',' || c == '/' || c == ' ') cs).map Text.trimChars).filter
    fun p => !p.isEmpty

/-- Reads a channel, rounded and brought between `0` and `255`. -/
def channelOfChars (cs : List Char) : Except ColorError UInt8 :=
  match Scalar.ofChars cs with
  | .ok x => .ok (Scalar.toByte (Scalar.clamp 0 255 (Scalar.round x)))
  | .error e => .error (.component (String.ofList cs) e)

/-- Reads an opacity, as a number or a percentage. -/
def alphaOfChars (cs : List Char) : Except ColorError Scalar :=
  let read : Except NumberError Scalar :=
    match Text.dropTrailing? ['%'] cs with
    | some ds => (Scalar.ofChars ds).map (· / 100)
    | none => Scalar.ofChars cs
  match read with
  | .ok x => .ok x
  | .error e => .error (.alpha (String.ofList cs) e)

/-- Reads what follows the opening parenthesis of a color function.  The opacity is read before
the channels. -/
def ofFunctionBody (cs : List Char) : Except ColorError Color :=
  match Text.dropTrailing? [')'] cs with
  | none => .error (.unterminated (String.ofList cs))
  | some body =>
    match components body with
    | [r, g, b] => do
      return rgba (← channelOfChars r) (← channelOfChars g) (← channelOfChars b) 1
    | [r, g, b, a] => do
      let a ← alphaOfChars a
      return rgba (← channelOfChars r) (← channelOfChars g) (← channelOfChars b) a
    | ps => .error (.componentCount ps.length)

/-- Reads a color. -/
def ofText (text : String) : Except ColorError Color :=
  let s := Text.trim text
  match s.toList with
  | '#' :: ds => ofHexDigits s ds
  | cs =>
    let low := cs.map Char.toLower
    if low = "transparent".toList then .ok transparent
    else
      match Text.dropLeading? "rgba(".toList low <|> Text.dropLeading? "rgb(".toList low with
      | some body => ofFunctionBody body
      | none =>
        match named.lookup (String.ofList low) with
        | some c => .ok c
        | none => .error (.unrecognised s)

/-- Reads a color from a text, or from an object with its channels and an opacity. -/
def ofJson? (j : Json) : Option Color :=
  match j with
  | .string s => s.bind fun s => (ofText s).toOption
  | .object _ => do
    match ← j.fields? ["r", "g", "b", "a"] with
    | [r, g, b, a] =>
      let channel := Json.required Json.byte?
      return ⟨← channel r, ← channel g, ← channel b, ← Json.withDefault 1 Json.scalar? a⟩
    | _ => none
  | _ => none

/-- The names of the fields that the written form of a color has: the opacity only when it is not
full. -/
def writtenFields (c : Color) : List String :=
  if c.alpha == 1 then ["b", "g", "r"] else ["a", "b", "g", "r"]

end Color

end ViewCompiler
