import ViewCompiler.Power

/-!
# Measured numbers

Every measure of the library (positions, sizes, opacities, densities) is a single precision
number.  The arithmetic is the one of core; this module adds what core leaves opaque or decides
differently, and computes it exactly on the decoded value `± m · 2 ^ q`:

* `Scalar.decode`, `Scalar.ofRatio` : the exact value of a number, and the number nearest to a
  quotient (ties to the even significand);
* `Scalar.round`, `Scalar.truncate` : whole numbers, a half going away from zero;
* `Scalar.emod` : the remainder that is never negative;
* `Scalar.compare` : the total order in which `-0` comes before `0`;
* `Scalar.min`, `Scalar.max`, `Scalar.clamp` : where each of them lets a `NaN` through.
-/

namespace ViewCompiler

/-- A measured number, in single precision. -/
abbrev Scalar := Float32

namespace Scalar

/-! ### Exact values -/

/-- The value behind the bits of a number: a finite one is `± m · 2 ^ q`. -/
inductive Exact where
  | nan
  | infinite (negative : Bool)
  | finite (negative : Bool) (m : Nat) (q : Int)
  deriving DecidableEq, Repr

/-- Splits the thirty-two bits into sign, eight bits of exponent and twenty-three of fraction. -/
def decode (x : Scalar) : Exact :=
  let bits := x.toBits.toNat
  let negative := decide (twoPow 31 ≤ bits)
  let exponent : Nat := bits / twoPow 23 % twoPow 8
  let fraction := bits % twoPow 23
  if exponent = 255 then
    if fraction = 0 then .infinite negative else .nan
  else if exponent = 0 then .finite negative fraction (-149)
  else .finite negative (fraction + twoPow 23) (exponent - 150)

/-- The bits with the given sign. -/
def ofSignedBits (negative : Bool) (bits : Nat) : Scalar :=
  Float32.ofBits (UInt32.ofNat (if negative then bits + twoPow 31 else bits))

def infinity (negative : Bool) : Scalar := ofSignedBits negative 0x7f800000

def nan : Scalar := Float32.ofBits 0x7fc00000

/-- The quotient rounded to a whole number, a half going to the even neighbour. -/
def divHalfEven (num den : Nat) : Nat :=
  let q := num / den
  let r := num % den
  if 2 * r < den then q
  else if den < 2 * r then q + 1
  else if q % 2 = 0 then q else q + 1

/-- The quotient rounded to a whole number, a half going up. -/
def divHalfUp (num den : Nat) : Nat :=
  (2 * num + den) / (2 * den)

/-- The exponent `k` with `2 ^ k ≤ num / den < 2 ^ (k + 1)`, for positive `num` and `den`. -/
def floorLog2Ratio (num den : Nat) : Int :=
  let k : Int := (Nat.log2 num : Int) - (Nat.log2 den : Int)
  let reached :=
    if 0 ≤ k then decide (den * twoPow k.toNat ≤ num) else decide (den ≤ num * twoPow (-k).toNat)
  if reached then k else k - 1

/-- The number nearest to `± num / den`; of two equally near the one with the even significand,
and an infinity from `2 ^ 128` less half a unit on. -/
def ofRatio (negative : Bool) (num den : Nat) : Scalar :=
  if num = 0 ∨ den = 0 then ofSignedBits negative 0
  else
    let q := max (floorLog2Ratio num den - 23) (-149)
    let m :=
      if 0 ≤ q then divHalfEven num (den * twoPow q.toNat)
      else divHalfEven (num * twoPow (-q).toNat) den
    let bits := (q + 149).toNat * twoPow 23 + m
    if 0x7f800000 ≤ bits then infinity negative else ofSignedBits negative bits

/-- The number nearest to `± m · 2 ^ q`. -/
def ofExact (negative : Bool) (m : Nat) (q : Int) : Scalar :=
  if 0 ≤ q then ofRatio negative (m * twoPow q.toNat) 1 else ofRatio negative m (twoPow (-q).toNat)

/-- The number nearest to a whole number. -/
def ofNat (n : Nat) : Scalar := ofRatio false n 1

/-- The number nearest to a whole number with a sign. -/
def ofInt (i : Int) : Scalar := ofRatio (decide (i < 0)) i.natAbs 1

/-- The number nearest to a double precision one. -/
def ofDouble (x : Float) : Scalar :=
  let bits := x.toBits.toNat
  let negative := decide (twoPow 63 ≤ bits)
  let exponent : Nat := bits / twoPow 52 % twoPow 11
  let fraction := bits % twoPow 52
  if exponent = 2047 then
    if fraction = 0 then infinity negative else nan
  else if exponent = 0 then ofExact negative fraction (-1074)
  else ofExact negative (fraction + twoPow 52) (exponent - 1075)

/-! ### Whole numbers -/

/-- The nearest whole number, a half going away from zero. -/
def round (x : Scalar) : Scalar :=
  match decode x with
  | .finite negative m q =>
    if 0 ≤ q then x else ofRatio negative (divHalfUp m (twoPow (-q).toNat)) 1
  | _ => x

/-- The whole part, brought between `lo` and `hi`; `0` for a `NaN`. -/
def truncate (lo hi : Int) (x : Scalar) : Int :=
  match decode x with
  | .nan => 0
  | .infinite negative => if negative then lo else hi
  | .finite negative m q =>
    let whole : Nat := if 0 ≤ q then m * twoPow q.toNat else m / twoPow (-q).toNat
    let i : Int := if negative then -whole else whole
    if i < lo then lo else if hi < i then hi else i

/-- The whole part as a signed word of sixty-four bits. -/
def toInt64Range (x : Scalar) : Int := truncate (-twoPow 63) (twoPow 63 - 1) x

/-- The whole part as a byte. -/
def toByte (x : Scalar) : UInt8 := UInt8.ofNat (truncate 0 255 x).toNat

/-- A byte as a number. -/
def ofByte (b : UInt8) : Scalar := ofNat b.toNat

/-! ### Remainders -/

/-- The exact remainder of the division truncated towards zero, with the sign of `x`. -/
def tmod (x y : Scalar) : Scalar :=
  match decode x, decode y with
  | .finite negative m q, .finite _ m' q' =>
    if m' = 0 then nan
    else
      let low := min q q'
      ofExact negative ((m * twoPow (q - low).toNat) % (m' * twoPow (q' - low).toNat)) low
  | .finite _ _ _, .infinite _ => x
  | _, _ => nan

/-- The remainder brought to zero or above. -/
def emod (x y : Scalar) : Scalar :=
  let r := tmod x y
  if r < 0 then r + y.abs else r

/-! ### Order -/

/-- Orders by bits: the numbers below zero from the largest magnitude down, `-0`, `0`, and the
numbers above zero. -/
def orderKey (x : Scalar) : Int :=
  let bits := x.toBits.toNat
  if twoPow 31 ≤ bits then (twoPow 31 : Int) - bits - 1 else bits

/-- The total order of all numbers. -/
def compare (x y : Scalar) : Ordering := Ord.compare (orderKey x) (orderKey y)

/-- The lesser of two numbers; a `NaN` gives way to the other. -/
def min (x y : Scalar) : Scalar :=
  if x.isNaN then y else if y < x then y else x

/-- The greater of two numbers; a `NaN` gives way to the other. -/
def max (x y : Scalar) : Scalar :=
  if x.isNaN then y else if x < y then y else x

/-- Brings a number between two bounds; a `NaN` stays. -/
def clamp (lo hi x : Scalar) : Scalar :=
  if x < lo then lo else if hi < x then hi else x

/-- Neither infinite nor a `NaN`. -/
def isFinite (x : Scalar) : Bool :=
  match decode x with
  | .finite .. => true
  | _ => false

/-! ### Angles -/

/-- Radians to degrees, by the nearest number to `180 / π`. -/
def toDegrees (x : Scalar) : Scalar := x * Float32.ofBits 0x42652ee1

end Scalar

end ViewCompiler
