import ViewCompiler.Identity
import ViewCompiler.Power

/-!
# Fragments

The output of a node is a list of pieces, in which a slot stands for the output of another node.

* `Fragment.leaf`, `Fragment.container` : a node without or with slots inside;
* `Fragment.ofText` : a text cut at the slot markers in it;
* `Placeholder.marker` : the marker of a slot, which is what `Placeholder.read?` reads.
-/

namespace ViewCompiler

/-- A slot: the place of one of the children of `owner`. -/
structure Placeholder where
  owner : NodeId
  position : Int
  deriving DecidableEq

namespace Placeholder

/-- By owner, then by position. -/
instance : Ord Placeholder where
  compare a b := (compare a.owner b.owner).then (compare a.position b.position)

instance : Std.TransOrd Placeholder where
  eq_swap {a b} := by
    change ((compare a.owner b.owner).then (compare a.position b.position)) =
      ((compare b.owner a.owner).then (compare b.position a.position)).swap
    rw [Ordering.swap_then, ← Std.OrientedCmp.eq_swap, ← Std.OrientedCmp.eq_swap]
  isLE_trans {a b c} := by
    change ((compare a.owner b.owner).then (compare a.position b.position)).isLE →
      ((compare b.owner c.owner).then (compare b.position c.position)).isLE →
      ((compare a.owner c.owner).then (compare a.position c.position)).isLE
    simp only [Ordering.isLE_then_iff_or, Nat.compare_eq_lt, Nat.compare_eq_eq, Int.isLE_compare]
    omega

instance : Std.LawfulEqOrd Placeholder where
  eq_of_compare {a b} h := by
    change ((compare a.owner b.owner).then (compare a.position b.position)) = .eq at h
    rw [Ordering.then_eq_eq] at h
    obtain ⟨h₁, h₂⟩ := h
    cases a
    cases b
    simp_all [Std.LawfulEqCmp.compare_eq_iff_eq]

/-- What stands for a slot in text. -/
def marker (p : Placeholder) : String :=
  "\x7b\x7bslot:" ++ toString p.owner ++ ":" ++ toString p.position ++ "\x7d\x7d"

/-- Takes a word off the front. -/
def dropWord? : List Char → List Char → Option (List Char)
  | [], cs => some cs
  | _ :: _, [] => none
  | w :: ws, c :: cs => if w = c then dropWord? ws cs else none

/-- Takes decimal digits off the front, at least one. -/
def readDigits? (cs : List Char) : Option (Nat × List Char) :=
  let ds := cs.takeWhile Char.isDigit
  if ds.isEmpty then none
  else some (ds.foldl (fun n c => 10 * n + (c.toNat - '0'.toNat)) 0, cs.dropWhile Char.isDigit)

/-- Takes the number of a node off the front, a number in thirty-two bits. -/
def readOwner? (cs : List Char) : Option (NodeId × List Char) := do
  let (n, r) ← readDigits? cs
  if n < twoPow 32 then return (n, r) else none

/-- Takes a position off the front, a signed number in thirty-two bits. -/
def readPosition? (cs : List Char) : Option (Int × List Char) :=
  match cs with
  | '-' :: r => do
    let (n, r) ← readDigits? r
    if n ≤ twoPow 31 then return (-(n : Int), r) else none
  | _ => do
    let (n, r) ← readDigits? cs
    if n < twoPow 31 then return ((n : Int), r) else none

/-- Takes a marker off the front. -/
def read? (cs : List Char) : Option (Placeholder × List Char) := do
  let r ← dropWord? "\x7b\x7bslot:".toList cs
  let (owner, r) ← readOwner? r
  let r ← dropWord? [':'] r
  let (position, r) ← readPosition? r
  let r ← dropWord? "\x7d\x7d".toList r
  return (⟨owner, position⟩, r)

end Placeholder

/-- A piece of output. -/
inductive Piece where
  | opening (node : NodeId)
  | closing (node : NodeId)
  | selfClosing (node : NodeId)
  | slot (place : Placeholder)
  /-- Text as it is. -/
  | raw (text : String)
  deriving DecidableEq

/-- The output of one node. -/
structure Fragment where
  pieces : List Piece
  deriving DecidableEq

namespace Fragment

instance : Inhabited Fragment := ⟨⟨[]⟩⟩

/-- A node with nothing inside. -/
def leaf (node : NodeId) : Fragment := ⟨[.selfClosing node]⟩

/-- A node around a number of slots. -/
def container (node : NodeId) (slots : Nat) : Fragment :=
  if slots = 0 then leaf node
  else
    ⟨.opening node :: ((List.range slots).map fun (i : Nat) => .slot ⟨node, i⟩) ++
      [.closing node]⟩

/-- A run of characters, or a slot. -/
inductive Segment where
  | text (cs : List Char)
  | slot (place : Placeholder)

/-- Puts a character before segments. -/
def consChar (c : Char) : List Segment → List Segment
  | .text cs :: r => .text (c :: cs) :: r
  | r => .text [c] :: r

/-- Cuts a text at its markers. -/
def segments (cs : List Char) : List Segment :=
  match cs with
  | [] => []
  | c :: r =>
    match Placeholder.read? (c :: r) with
    | none => consChar c (segments r)
    | some (place, r') =>
      if _h : r'.length ≤ r.length then .slot place :: segments r' else []
termination_by cs.length

/-- A text cut at its markers, so that they take part in assembly. -/
def ofText (text : String) : Fragment :=
  ⟨(segments text.toList).map fun
    | .text cs => .raw (String.ofList cs)
    | .slot place => .slot place⟩

def slots (f : Fragment) : List Placeholder :=
  f.pieces.filterMap fun
    | .slot place => some place
    | _ => none

def containsSlot (f : Fragment) (place : Placeholder) : Bool := f.slots.contains place

end Fragment

end ViewCompiler
