import ViewCompiler.Json

/-!
# Containers

The abstract kinds of container; a dialect says which view stands for each.
-/

namespace ViewCompiler

inductive Container where
  /-- Content without children. -/
  | leaf
  | linearHorizontal
  | linearVertical
  /-- Members aligned on a shared baseline. -/
  | relative
  /-- Free placement. -/
  | frame
  | grid
  deriving DecidableEq, Repr

namespace Container

instance : Inhabited Container := ⟨leaf⟩

/-- Each kind with its short name and its name in structured values. -/
def names : List (Container × String × String) := [
  (leaf, "leaf", "None"), (linearHorizontal, "linear-horizontal", "LinearHorizontal"),
  (linearVertical, "linear-vertical", "LinearVertical"), (relative, "relative", "Relative"),
  (frame, "frame", "Frame"), (grid, "grid", "Grid")]

/-- The short name. -/
def name (c : Container) : String := ((names.lookup c).map Prod.fst).getD ""

/-- The name in structured values. -/
def written (c : Container) : String := ((names.lookup c).map Prod.snd).getD ""

def ofWritten? (s : String) : Option Container :=
  (names.find? fun e => e.2.2 == s).map Prod.fst

def ofName? (s : String) : Option Container :=
  (names.find? fun e => e.2.1 == s).map Prod.fst

/-- Reads a kind from its name, which may also be the only key of an object. -/
def ofJson? (j : Json) : Option Container :=
  match j with
  | .string s => s.bind ofWritten?
  | j =>
    match j.single? with
    | some (k, .null) => ofWritten? k
    | _ => none

def isContainer (c : Container) : Bool := c != leaf

def isLinear (c : Container) : Bool := c == linearHorizontal || c == linearVertical

end Container

/-- The counts of columns and rows of a grid. -/
structure GridShape where
  columns : Nat
  rows : Nat
  deriving DecidableEq

namespace GridShape

def ofJson? (j : Json) : Option GridShape := do
  match ← j.fields? ["columns", "rows"] with
  | [c, r] =>
    let count := Json.required (Json.natBelow? (twoPow 64))
    return ⟨← count c, ← count r⟩
  | _ => none

end GridShape

end ViewCompiler
