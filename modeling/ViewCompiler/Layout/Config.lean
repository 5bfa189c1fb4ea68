import ViewCompiler.Json

/-!
# Configuration of the classifier
-/

namespace ViewCompiler

structure LayoutConfig where
  /-- Whether floats in front of a band and the content after them share one horizontal group. -/
  floatOverlap : Bool
  /-- The slack of every comparison of boxes. -/
  tolerance : Scalar
  /-- The distance from the origin of its parent within which a positioned box stays in the
  flow. -/
  originTolerance : Scalar
  deriving DecidableEq

namespace LayoutConfig

def default : LayoutConfig := ⟨true, 1, 1⟩

instance : Inhabited LayoutConfig := ⟨default⟩

/-- Reads a configuration; what is missing has its default. -/
def ofJson? (j : Json) : Option LayoutConfig := do
  match ← j.fields? ["floatOverlap", "tolerancePx", "originTolerancePx"] with
  | [overlap, tolerance, origin] =>
    let overlap ← Json.withDefault default.floatOverlap Json.bool? overlap
    let tolerance ← Json.withDefault default.tolerance Json.scalar? tolerance
    let origin ← Json.withDefault default.originTolerance Json.scalar? origin
    return ⟨overlap, tolerance, origin⟩
  | _ => none

end LayoutConfig

end ViewCompiler
