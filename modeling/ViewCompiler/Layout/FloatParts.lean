import ViewCompiler.Layout.Axis

/-!
# Splitting a run at floats

From the first float on, floats are pending on their side until a box clears them.  A clear that
leaves floats pending on the other side sends the floats after it below; the first clear that leaves
none pending starts a part of its own.  Boxes in between that do not float wrap around the floats.

`FloatParts.length_below_lt` : that part is shorter than a run with a float, so splitting can be
repeated on it.
-/

namespace ViewCompiler

/-- The parts of a run, each in source order. -/
structure FloatParts where
  /-- Before the first float. -/
  above : List Node
  leftAbove : List Node
  rightAbove : List Node
  /-- What wraps around the floats. -/
  inline : List Node
  leftBelow : List Node
  rightBelow : List Node
  /-- From the clear on that leaves no float pending. -/
  below : List Node

namespace FloatParts

def empty : FloatParts := ⟨[], [], [], [], [], [], []⟩

/-- Puts a node in front of the part that it belongs to. -/
def push (n : Node) (cleared : Bool) (p : FloatParts) : FloatParts :=
  match n.style.float, cleared with
  | .left, false => { p with leftAbove := n :: p.leftAbove }
  | .left, true => { p with leftBelow := n :: p.leftBelow }
  | .right, false => { p with rightAbove := n :: p.rightAbove }
  | .right, true => { p with rightBelow := n :: p.rightBelow }
  | .none, _ => { p with inline := n :: p.inline }

/-- The floats that nothing has cleared yet, on each side, and whether some have been cleared. -/
structure Pending where
  left : Nat
  right : Nat
  cleared : Bool

namespace Pending

/-- Whether a node clears floats while some are pending. -/
def isCutBy (p : Pending) (n : Node) : Bool :=
  n.style.clear.isClearing && decide (0 < p.left + p.right)

/-- What is pending after the clear of a node. -/
def afterClear (p : Pending) (n : Node) : Pending :=
  if p.isCutBy n then
    ⟨if n.style.clear.clearsLeft then 0 else p.left,
      if n.style.clear.clearsRight then 0 else p.right, true⟩
  else p

/-- What is pending after a node that may float. -/
def afterFloat (p : Pending) (n : Node) : Pending :=
  match n.style.float with
  | .left => { p with left := p.left + 1 }
  | .right => { p with right := p.right + 1 }
  | .none => p

/-- Whether a node clears all floats that are pending. -/
def isEndedBy (p : Pending) (n : Node) : Bool :=
  p.isCutBy n && (p.afterClear n).left + (p.afterClear n).right == 0

end Pending

/-- Splits a run in front of which floats are pending. -/
def scan (p : Pending) : List Node → FloatParts
  | [] => empty
  | n :: run =>
    if p.isEndedBy n then { empty with below := n :: run }
    else (scan ((p.afterClear n).afterFloat n) run).push n (p.afterClear n).cleared

/-- Splits a run at its floats. -/
def ofRun (run : List Node) : FloatParts :=
  { scan ⟨0, 0, false⟩ (run.dropWhile fun n => !n.isFloating) with
    above := run.takeWhile fun n => !n.isFloating }

@[simp] theorem below_push (n : Node) (cleared : Bool) (p : FloatParts) :
    (p.push n cleared).below = p.below := by
  unfold push
  split <;> rfl

theorem length_below_scan_le (p : Pending) (run : List Node) :
    (scan p run).below.length ≤ run.length := by
  induction run generalizing p with
  | nil => simp [scan, empty]
  | cons n run ih =>
    unfold scan
    split
    · simp
    · rw [below_push]
      exact Nat.le_succ_of_le (ih _)

theorem length_below_scan_lt {p : Pending} (hp : p.left + p.right = 0) {run : List Node}
    (h : run ≠ []) : (scan p run).below.length < run.length := by
  cases run with
  | nil => exact absurd rfl h
  | cons n run =>
    have : p.isEndedBy n = false := by simp [Pending.isEndedBy, Pending.isCutBy, hp]
    simp only [scan, this, Bool.false_eq_true, if_false, below_push, List.length_cons]
    exact Nat.lt_succ_of_le (length_below_scan_le _ _)

/-- **The last part of a run with a float is shorter than the run.** -/
theorem length_below_lt {run : List Node} (h : run.any Node.isFloating = true) :
    (ofRun run).below.length < run.length := by
  have hne : (run.dropWhile fun n => !n.isFloating) ≠ [] := by
    obtain ⟨n, hn, hf⟩ := List.any_eq_true.1 h
    induction run with
    | nil => simp at hn
    | cons m run ih =>
      by_cases hm : m.isFloating = true
      · simp [hm]
      · rcases List.mem_cons.1 hn with rfl | hn
        · exact absurd hf hm
        · simpa [hm] using ih (List.any_eq_true.2 ⟨n, hn, hf⟩) hn
  exact Nat.lt_of_lt_of_le (length_below_scan_lt rfl hne)
    (List.dropWhile_sublist _).length_le

end FloatParts

end ViewCompiler
