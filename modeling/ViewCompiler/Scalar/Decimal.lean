import ViewCompiler.Scalar

/-!
# Numbers as decimal text

Reading and writing of measured numbers.

* `Decimal.toScalar` : the number nearest to a decimal fraction, rounded once;
* `Decimal.ofChars?`, `Scalar.ofChars` : the texts that stand for a number;
* `Scalar.shortest` : the text with the fewest digits that reads back;
* `Scalar.text` : the text of a measure in a document, with at most two decimals.
-/

namespace ViewCompiler

/-- The decimal fraction `± digits · 10 ^ exponent`. -/
structure Decimal where
  negative : Bool
  digits : Nat
  exponent : Int
  deriving DecidableEq, Repr

/-- Why a text is not a number. -/
inductive NumberError where
  | empty
  | malformed
  deriving DecidableEq, Repr

def NumberError.message : NumberError → String
  | .empty => "cannot parse float from empty string"
  | .malformed => "invalid float literal"

/-! ### Digits -/

namespace Decimal

/-- The number that a list of decimal digits writes, continuing from `start`. -/
def valueOfDigits (start : Nat) (cs : List Char) : Nat :=
  cs.foldl (fun n c => 10 * n + (c.toNat - '0'.toNat)) start

/-- The decimal digits of a number, at least one. -/
def digitsOf (n : Nat) : List Char := Nat.toDigits 10 n

/-- The number nearest to a decimal fraction.  Fractions beyond every number's range are told
apart by their count of digits, so that no large power is computed for them. -/
def toScalar (d : Decimal) : Scalar :=
  let top := d.exponent + (digitsOf d.digits).length
  if d.digits = 0 ∨ top < -50 then Scalar.ofSignedBits d.negative 0
  else if 40 < top then Scalar.infinity d.negative
  else if 0 ≤ d.exponent then Scalar.ofRatio d.negative (d.digits * tenPow d.exponent.toNat) 1
  else Scalar.ofRatio d.negative d.digits (tenPow (-d.exponent).toNat)

/-! ### Reading -/

/-- Takes a leading sign off; `true` means minus. -/
def splitSign : List Char → Bool × List Char
  | '-' :: r => (true, r)
  | '+' :: r => (false, r)
  | r => (false, r)

/-- Splits off the leading decimal digits. -/
def spanDigits (cs : List Char) : List Char × List Char :=
  (cs.takeWhile Char.isDigit, cs.dropWhile Char.isDigit)

/-- The exponent that ends a number: nothing, or `e` with a sign and digits. -/
def readExponent? : List Char → Option Int
  | [] => some 0
  | c :: r =>
    if c = 'e' ∨ c = 'E' then
      let (negative, r) := splitSign r
      let (ds, rest) := spanDigits r
      if ds.isEmpty ∨ !rest.isEmpty then none
      else
        let n : Int := valueOfDigits 0 ds
        some (if negative then -n else n)
    else none

/-- Reads digits with an optional point and an optional exponent, with a digit on at least one
side of the point. -/
def ofUnsigned? (negative : Bool) (cs : List Char) : Option Decimal :=
  let (whole, r) := spanDigits cs
  let (fraction, r) :=
    match r with
    | '.' :: r => spanDigits r
    | r => ([], r)
  if whole.isEmpty ∧ fraction.isEmpty then none
  else
    (readExponent? r).map fun e =>
      ⟨negative, valueOfDigits (valueOfDigits 0 whole) fraction, e - fraction.length⟩

/-- Reads a decimal fraction with an optional sign. -/
def ofChars? (cs : List Char) : Option Decimal :=
  let (negative, r) := splitSign cs
  ofUnsigned? negative r

end Decimal

namespace Scalar

/-- Reads a number: a decimal fraction or, in any case, `inf`, `infinity` or `nan`. -/
def ofChars (cs : List Char) : Except NumberError Scalar :=
  if cs.isEmpty then .error .empty
  else
    let (negative, r) := Decimal.splitSign cs
    let word := r.map Char.toLower
    if word = "inf".toList ∨ word = "infinity".toList then .ok (infinity negative)
    else if word = "nan".toList then .ok nan
    else
      match Decimal.ofUnsigned? negative r with
      | some d => .ok d.toScalar
      | none => .error .malformed

/-- Reads a number from a text. -/
def ofText (s : String) : Except NumberError Scalar := ofChars s.toList

/-! ### Writing -/

/-- Writes `digits · 10 ^ exponent` without an exponent. -/
def positional (digits : Nat) (exponent : Int) : List Char :=
  let ds := Decimal.digitsOf digits
  if 0 ≤ exponent then ds ++ List.replicate exponent.toNat '0'
  else
    let places := (-exponent).toNat
    let padded := List.replicate (places + 1 - ds.length) '0' ++ ds
    padded.take (padded.length - places) ++ '.' :: padded.drop (padded.length - places)

/-- Of the points of the grid `10 ^ k` that read back as `m · 2 ^ q`, the one nearest to it.  Only
the two neighbours of the value can be nearest; the ends of the interval that reads back belong
to it exactly when `m` is even. -/
def gridPoint? (m : Nat) (q k : Int) : Option Nat :=
  -- everything is counted in units of `2 ^ (q - 2)`, times `den` on both sides
  let scale : Int → Nat := fun e => if 0 ≤ e then twoPow e.toNat else 1
  let ten : Int → Nat := fun e => if 0 ≤ e then tenPow e.toNat else 1
  -- `c · 10 ^ k` against `v · 2 ^ (q - 2)`
  let left := ten k * scale (2 - q)
  let right := ten (-k) * scale (q - 2)
  let value := 4 * m * right
  let below := 2 * right
  let lower := if m = twoPow 23 ∧ -149 < q then right else below
  let reads : Nat → Bool := fun c =>
    let point := c * left
    if m % 2 = 0 then decide (value ≤ point + lower ∧ point ≤ value + below)
    else decide (value < point + lower ∧ point < value + below)
  let c := value / left
  match reads c, reads (c + 1) with
  | true, true => if 2 * (value - c * left) ≤ left then some c else some (c + 1)
  | true, false => some c
  | false, true => some (c + 1)
  | false, false => none

/-- The fewest digits that read back as `m · 2 ^ q`: the coarsest decimal grid with a point that
does. -/
def shortestDigits (m : Nat) (q : Int) : Nat × Int :=
  ((List.range 100).findSome? fun (i : Nat) =>
    let k : Int := 39 - i
    (gridPoint? m q k).map fun c => (c, k)).getD (0, 0)

/-- The shortest text that reads back, without an exponent. -/
def shortest (x : Scalar) : String :=
  let sign : Bool → List Char := fun negative => if negative then ['-'] else []
  match decode x with
  | .nan => "NaN"
  | .infinite negative => String.ofList (sign negative ++ "inf".toList)
  | .finite negative m q =>
    if m = 0 then String.ofList (sign negative ++ ['0'])
    else
      let (digits, exponent) := shortestDigits m q
      String.ofList (sign negative ++ positional digits exponent)

/-- Two decimals, the exact value rounded to the nearest and a half to the even digit. -/
def twoPlaces (x : Scalar) : List Char :=
  match decode x with
  | .nan => "NaN".toList
  | .infinite negative => if negative then "-inf".toList else "inf".toList
  | .finite negative m q =>
    let hundredths :=
      if 0 ≤ q then 100 * m * twoPow q.toNat else divHalfEven (100 * m) (twoPow (-q).toNat)
    (if negative then ['-'] else []) ++ positional hundredths (-2)

/-- Takes the trailing characters that satisfy `p` off. -/
def dropTrailing (p : Char → Bool) (cs : List Char) : List Char :=
  (cs.reverse.dropWhile p).reverse

/-- The text of a measure: a number within `0.005` of a whole one is written as that, any other
with up to two decimals. -/
def text (x : Scalar) : String :=
  let whole := round x
  if (x - whole).abs < 0.005 then toString (toInt64Range whole)
  else
    String.ofList (dropTrailing (· == '.') (dropTrailing (· == '0') (twoPlaces x)))

end Scalar

end ViewCompiler
