import ViewCompiler.Layout.Node
import ViewCompiler.StableSort

/-!
# Axes

Tests of whether the boxes of a run lie side by side, on top of each other, on a shared baseline or
on a grid.
-/

namespace ViewCompiler

namespace Node

/-- A block in the flow, which starts a new line. -/
def isBlockInFlow (n : Node) : Bool :=
  n.style.display.isBlockLevel && !n.style.float.isFloating && !n.style.position.isOutOfFlow

def isInlineLevel (n : Node) : Bool := n.kind == .text || n.style.display.isInlineLevel

def isFloating (n : Node) : Bool := n.style.float.isFloating

/-- Clears floats or breaks the line. -/
def interruptsLine (n : Node) : Bool := n.style.clear.isClearing || n.isForcedBreak

end Node

namespace Axis

/-! ### Side by side -/

/-- Whether two boxes share a horizontal band and no vertical one. -/
def besides (tolerance : Scalar) (later earlier : Node) : Bool :=
  later.bounds.overlapsVertically earlier.bounds tolerance &&
    !later.bounds.overlapsHorizontally earlier.bounds tolerance

/-- Whether every two nodes of a list are related, the later one first. -/
def allPairs (related : Node → Node → Bool) : List Node → Bool
  | [] => true
  | n :: r => r.all (fun later => related later n) && allPairs related r

/-- Whether a run lies side by side. -/
def isHorizontal (tolerance : Scalar) (run : List Node) : Bool :=
  !run.any Node.interruptsLine && allPairs (besides tolerance) run

/-! ### On top of each other -/

/-- Whether a box is wider than the content it lies in. -/
def isTooWide (content : Rect) (tolerance : Scalar) (n : Node) : Bool :=
  n.bounds.width > content.width + tolerance

/-- Whether a node goes below the one before it.  A float that shares a band with its neighbour does
not. -/
def goesBelow (content : Rect) (tolerance : Scalar) (previous next : Node) : Bool :=
  if (previous.isFloating || next.isFloating) &&
      previous.bounds.overlapsVertically next.bounds tolerance then false
  else
    previous.isForcedBreak || next.isForcedBreak || previous.isBlockInFlow ||
      next.isBlockInFlow || isTooWide content tolerance previous ||
      isTooWide content tolerance next || next.bounds.y ≥ previous.bounds.bottom - tolerance

/-- Whether every two neighbours of a list are related. -/
def allNeighbours (related : Node → Node → Bool) : List Node → Bool
  | a :: b :: r => related a b && allNeighbours related (b :: r)
  | _ => true

/-- Whether a run lies on top of each other. -/
def isVertical (content : Rect) (tolerance : Scalar) (run : List Node) : Bool :=
  allNeighbours (goesBelow content tolerance) run

/-! ### On a baseline -/

/-- Whether a node reaches above its line. -/
def reachesAbove (n : Node) : Bool :=
  n.margin.top < 0 ||
    match n.style.top with
    | .px x => x < 0
    | _ => false

/-- Whether a container that aligns baselines can hold a node. -/
def isAlignable (n : Node) : Bool :=
  n.isInlineLevel && !reachesAbove n && n.style.verticalAlign.isRelativeCompatible

/-- The distance of line heights that counts as none. -/
def lineEpsilon : Scalar := Float32.ofBits 0x34000000

/-- Whether a node is a better reference than the best so far: a greater height of line or, of equal
heights, text or an image instead of something else. -/
def isBetterAnchor (best n : Node) : Bool :=
  n.style.lineHeight > best.style.lineHeight + lineEpsilon ||
    ((n.style.lineHeight - best.style.lineHeight).abs ≤ lineEpsilon && n.isLeafContent &&
      !best.isLeafContent)

/-- The best reference among candidates, of equally good ones the first. -/
def bestAnchor? : List Node → Option Node
  | [] => none
  | n :: r => some (r.foldl (fun best n => if isBetterAnchor best n then n else best) n)

/-- The node whose baseline the others of a run follow, if the run can be aligned. -/
def anchor? (run : List Node) : Option NodeId :=
  if run.all isAlignable then
    let onBaseline := run.filter fun n => n.style.verticalAlign.isBaseline
    (bestAnchor? (if onBaseline.isEmpty then run else onBaseline)).map Node.id
  else none

/-! ### On a grid -/

/-- Orders boxes by their top edges, then by their left edges. -/
def topLeftLE (a b : Nat × Rect) : Bool :=
  ((Scalar.compare a.2.y b.2.y).then (Scalar.compare a.2.x b.2.x)).isLE

/-- Puts cells into rows: a cell that shares a band with the row so far joins it. -/
def rowsFrom (tolerance : Scalar) (band : Rect) (row : List Nat) :
    List (Nat × Rect) → List (List Nat)
  | [] => [row.reverse]
  | (i, r) :: cells =>
    if band.overlapsVertically r tolerance then
      rowsFrom tolerance (band.union r) (i :: row) cells
    else row.reverse :: rowsFrom tolerance r [i] cells

/-- The rows of a grid, as places in the list of boxes. -/
def rows (tolerance : Scalar) (boxes : List Rect) : List (List Nat) :=
  match stableSort topLeftLE (boxes.zipIdx.map fun (r, i) => (i, r)) with
  | [] => []
  | (i, r) :: cells => rowsFrom tolerance r [i] cells

/-- The counts of columns and rows. -/
def gridShape (tolerance : Scalar) (boxes : List Rect) : GridShape :=
  let rows := rows tolerance boxes
  ⟨(rows.map List.length).foldl max 0, rows.length⟩

end Axis

end ViewCompiler
