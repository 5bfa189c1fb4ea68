/-!
# Marks of a node

The marks that classification and ingestion leave on nodes and decisions, and sets of them.
`Flags.contains_insert`, `Flags.contains_erase` and `Flags.contains_union` are the laws of the set
operations.
-/

namespace ViewCompiler

/-- A mark on a node or a decision. -/
inductive Flag where
  /-- The width is a share of a horizontal container. -/
  | percentWidth
  /-- The box spans the content of its parent. -/
  | matchWidth
  | centerHorizontal
  | alignEnd
  /-- The order of output follows the boxes and not the source. -/
  | reversed
  /-- The member whose baseline the others follow. -/
  | baselineAnchor
  /-- An absolutely placed member, layered over the flow. -/
  | overlay
  /-- No test for an axis or a baseline matched. -/
  | degenerate
  /-- Made by splitting a run at floats. -/
  | floatSplit
  | multiColumn
  /-- Rendered under another node than its own parent. -/
  | relocated
  /-- Takes relocated nodes at depth zero. -/
  | relocationTarget
  /-- The output is a text given from outside. -/
  | replaced
  | hidden
  deriving DecidableEq, Repr

namespace Flag

/-- All marks, in order. -/
def all : List Flag := [percentWidth, matchWidth, centerHorizontal, alignEnd, reversed,
  baselineAnchor, overlay, degenerate, floatSplit, multiColumn, relocated, relocationTarget,
  replaced, hidden]

theorem mem_all (f : Flag) : f ∈ all := by cases f <;> decide

/-- The place of a mark in the order. -/
def index : Flag → Nat
  | percentWidth => 0
  | matchWidth => 1
  | centerHorizontal => 2
  | alignEnd => 3
  | reversed => 4
  | baselineAnchor => 5
  | overlay => 6
  | degenerate => 7
  | floatSplit => 8
  | multiColumn => 9
  | relocated => 10
  | relocationTarget => 11
  | replaced => 12
  | hidden => 13

theorem index_lt (f : Flag) : f.index < 14 := by cases f <;> decide

theorem index_inj {f g : Flag} (h : f.index = g.index) : f = g := by
  cases f <;> cases g <;> first | rfl | exact absurd h (by decide)

/-- The name of a mark. -/
def name : Flag → String
  | percentWidth => "PERCENT_WIDTH"
  | matchWidth => "MATCH_WIDTH"
  | centerHorizontal => "CENTER_HORIZONTAL"
  | alignEnd => "ALIGN_END"
  | reversed => "REVERSED"
  | baselineAnchor => "BASELINE_ANCHOR"
  | overlay => "OVERLAY"
  | degenerate => "DEGENERATE"
  | floatSplit => "FLOAT_SPLIT"
  | multiColumn => "MULTI_COLUMN"
  | relocated => "RELOCATED"
  | relocationTarget => "RELOCATION_TARGET"
  | replaced => "REPLACED"
  | hidden => "HIDDEN"

end Flag

/-- A set of marks, one bit for each. -/
structure Flags where
  bits : BitVec 14
  deriving DecidableEq

namespace Flags

def empty : Flags := ⟨0⟩

instance : Inhabited Flags := ⟨empty⟩

def contains (s : Flags) (f : Flag) : Bool := s.bits.getLsbD f.index

def insert (s : Flags) (f : Flag) : Flags := ⟨s.bits ||| BitVec.twoPow 14 f.index⟩

def erase (s : Flags) (f : Flag) : Flags := ⟨s.bits &&& ~~~BitVec.twoPow 14 f.index⟩

def union (s t : Flags) : Flags := ⟨s.bits ||| t.bits⟩

def ofList (l : List Flag) : Flags := l.foldl insert empty

def isEmpty (s : Flags) : Bool := s == empty

/-- The marks of a set, in order. -/
def toList (s : Flags) : List Flag := Flag.all.filter s.contains

@[simp] theorem contains_empty (f : Flag) : empty.contains f = false := by
  simp [contains, empty]

@[simp] theorem contains_insert (s : Flags) (f g : Flag) :
    (s.insert f).contains g = (decide (f = g) || s.contains g) := by
  have hg := g.index_lt
  by_cases h : f = g
  · subst h
    simp [contains, insert, hg]
  · have hi : f.index ≠ g.index := fun e => h (Flag.index_inj e)
    simp [contains, insert, BitVec.getLsbD_twoPow, h, hi]

@[simp] theorem contains_erase (s : Flags) (f g : Flag) :
    (s.erase f).contains g = (decide (f ≠ g) && s.contains g) := by
  have hg := g.index_lt
  by_cases h : f = g
  · subst h
    simp [contains, erase, hg]
  · have hi : g.index ≠ f.index := fun e => h (Flag.index_inj e).symm
    simp [contains, erase, h, hi, hg]

@[simp] theorem contains_union (s t : Flags) (f : Flag) :
    (s.union t).contains f = (s.contains f || t.contains f) := by
  simp [contains, union]

end Flags

end ViewCompiler
