import ViewCompiler.Scalar
import ViewCompiler.Json

/-!
# Boxes

Axis-aligned boxes in document pixels and the rings of margin, border and padding around them.

* `Rect.expand`, `Rect.contract` : from a border box to a margin box and to a content box;
* `Rect.union`, `Rect.unionAll?` : the smallest box around two or more;
* `Rect.overlapsVertically`, `Rect.overlapsHorizontally` : a shared band, with a tolerance.
-/

namespace ViewCompiler

/-- The slack in comparisons of measured boxes. -/
def epsilon : Scalar := 0.01

structure Size where
  width : Scalar
  height : Scalar
  deriving DecidableEq

namespace Size

def zero : Size := ⟨0, 0⟩

def isZero (s : Size) : Bool := s.width.abs < epsilon && s.height.abs < epsilon

end Size

/-- The thickness of a ring on each side. -/
structure Edges where
  top : Scalar
  right : Scalar
  bottom : Scalar
  left : Scalar
  deriving DecidableEq

namespace Edges

def all (x : Scalar) : Edges := ⟨x, x, x, x⟩

def zero : Edges := all 0

instance : Inhabited Edges := ⟨zero⟩

def horizontal (e : Edges) : Scalar := e.left + e.right

def vertical (e : Edges) : Scalar := e.top + e.bottom

def isZero (e : Edges) : Bool :=
  e.top.abs < epsilon && e.right.abs < epsilon && e.bottom.abs < epsilon && e.left.abs < epsilon

/-- Whether every side has the same thickness. -/
def isUniform (e : Edges) : Bool :=
  (e.top - e.right).abs < epsilon && (e.top - e.bottom).abs < epsilon &&
    (e.top - e.left).abs < epsilon

instance : Add Edges where
  add a b := ⟨a.top + b.top, a.right + b.right, a.bottom + b.bottom, a.left + b.left⟩

/-- Reads a ring; a side without a thickness has none. -/
def ofJson? (j : Json) : Option Edges := do
  match ← j.fields? ["top", "right", "bottom", "left"] with
  | [t, r, b, l] =>
    let side := Json.withDefault 0 Json.scalar?
    return ⟨← side t, ← side r, ← side b, ← side l⟩
  | _ => none

end Edges

/-- A box, given by its top left corner and its size. -/
structure Rect where
  x : Scalar
  y : Scalar
  width : Scalar
  height : Scalar
  deriving DecidableEq

namespace Rect

def zero : Rect := ⟨0, 0, 0, 0⟩

instance : Inhabited Rect := ⟨zero⟩

def right (r : Rect) : Scalar := r.x + r.width

def bottom (r : Rect) : Scalar := r.y + r.height

def centerX (r : Rect) : Scalar := r.x + r.width / 2

def size (r : Rect) : Size := ⟨r.width, r.height⟩

def isEmpty (r : Rect) : Bool := r.width ≤ epsilon || r.height ≤ epsilon

/-- The box with a ring around it. -/
def expand (r : Rect) (e : Edges) : Rect :=
  ⟨r.x - e.left, r.y - e.top, r.width + e.horizontal, r.height + e.vertical⟩

/-- The box inside a ring, never below zero size. -/
def contract (r : Rect) (e : Edges) : Rect :=
  ⟨r.x + e.left, r.y + e.top, Scalar.max (r.width - e.horizontal) 0,
    Scalar.max (r.height - e.vertical) 0⟩

/-- The smallest box around two boxes. -/
def union (r s : Rect) : Rect :=
  let x := Scalar.min r.x s.x
  let y := Scalar.min r.y s.y
  ⟨x, y, Scalar.max r.right s.right - x, Scalar.max r.bottom s.bottom - y⟩

/-- The smallest box around all boxes of a list, if there are any. -/
def unionAll? : List Rect → Option Rect
  | [] => none
  | r :: rs => some (rs.foldl union r)

/-- Whether two boxes share a horizontal band. -/
def overlapsVertically (r s : Rect) (tolerance : Scalar) : Bool :=
  r.y < s.bottom - tolerance && s.y < r.bottom - tolerance

/-- Whether two boxes share a vertical band. -/
def overlapsHorizontally (r s : Rect) (tolerance : Scalar) : Bool :=
  r.x < s.right - tolerance && s.x < r.right - tolerance

def intersects (r s : Rect) (tolerance : Scalar) : Bool :=
  r.overlapsVertically s tolerance && r.overlapsHorizontally s tolerance

/-- Reads a box; all four numbers must be there. -/
def ofJson? (j : Json) : Option Rect := do
  match ← j.fields? ["x", "y", "width", "height"] with
  | [x, y, w, h] =>
    let number := Json.required Json.scalar?
    return ⟨← number x, ← number y, ← number w, ← number h⟩
  | _ => none

end Rect

end ViewCompiler
