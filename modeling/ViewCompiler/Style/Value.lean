import ViewCompiler.Color
import ViewCompiler.Style.Keyword

/-!
# Values of style properties

Lengths that may depend on a container (`Dimension`), the placing of a box in its line
(`VerticalAlign`) and linear gradients reduced to three colors (`Gradient`).
-/

namespace ViewCompiler

/-! ### Dimensions -/

/-- A length in pixels, a share of the container, or neither. -/
inductive Dimension where
  | px (x : Scalar)
  | percent (x : Scalar)
  | auto
  deriving DecidableEq

namespace Dimension

def isAuto : Dimension → Bool
  | auto => true
  | _ => false

def percent? : Dimension → Option Scalar
  | percent p => some p
  | _ => none

/-- The length inside a container of length `base`. -/
def resolve? (base : Scalar) : Dimension → Option Scalar
  | px x => some x
  | percent p => some (base * p / 100)
  | auto => none

def ofJson? (j : Json) : Option Dimension :=
  match j with
  | .string s => if s = some "auto" then some auto else none
  | j =>
    match j.single? with
    | some ("px", j) => j.scalar?.map px
    | some ("percent", j) => j.scalar?.map percent
    | some ("auto", .null) => some auto
    | _ => none

end Dimension

/-! ### Placing in a line -/

inductive VerticalAlign where
  | baseline
  | top
  | middle
  | bottom
  | textTop
  | textBottom
  | sub
  | super
  /-- An offset in pixels; a positive one raises the box. -/
  | length (x : Scalar)
  | percent (x : Scalar)
  deriving DecidableEq

namespace VerticalAlign

/-- Whether a container that aligns boxes by their baselines can express the value. -/
def isRelativeCompatible : VerticalAlign → Bool
  | baseline | top | middle | bottom => true
  | length x | percent x => x ≥ 0
  | _ => false

def isBaseline : VerticalAlign → Bool
  | baseline => true
  | _ => false

instance : Keyword VerticalAlign where
  label := "vertical-align"
  initial := .baseline
  names := [("baseline", .baseline), ("top", .top), ("middle", .middle), ("bottom", .bottom),
    ("text-top", .textTop), ("text-bottom", .textBottom), ("sub", .sub), ("super", .super)]

def ofJson? (j : Json) : Option VerticalAlign :=
  match j.single? with
  | some ("length", j) => j.scalar?.map length
  | some ("percent", j) => j.scalar?.map percent
  | _ => Keyword.ofJson? j

end VerticalAlign

/-! ### Gradients -/

/-- A linear gradient with up to three colors.  An angle of `0` points up, of `90` to the right. -/
structure Gradient where
  angle : Scalar
  start : Color
  center : Option Color
  finish : Color
  deriving DecidableEq

namespace Gradient

/-- The gradient of a list of at least two colors: the first, the last and, if there are three or
more, the one in the middle.  The angle is brought between `0` and `360`. -/
def ofStops? (angle : Scalar) (stops : List Color) : Option Gradient :=
  match stops with
  | first :: second :: rest =>
    some {
      angle := Scalar.emod angle 360
      start := first
      center := if rest.isEmpty then none else stops[stops.length / 2]?
      finish := (second :: rest).getLast (by simp) }
  | _ => none

end Gradient

end ViewCompiler
