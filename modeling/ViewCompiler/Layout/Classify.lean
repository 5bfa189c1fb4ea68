import ViewCompiler.Layout.Plan
import ViewCompiler.Layout.Walk

/-!
# Classification

Each run of members without a place in the output is given places: its plan is carried out, with a
new node for each group inside it, and every container is recorded as a decision.

* `Classify.run` : the pending run of one node;
* `Classify.document` : all runs of a document, the deepest first.
-/

namespace ViewCompiler

/-- What holds some members, and in which order.  The decision on a group comes before the decision
on what the group is in. -/
structure LayoutDecision where
  /-- The node whose run it is, or a group made for it. -/
  owner : NodeId
  /-- Whether the owner is a group. -/
  synthetic : Bool
  container : Container
  flags : Flags
  /-- The members in source order. -/
  members : List NodeId
  /-- The order of output, where it differs. -/
  reorder : Option (List NodeId)
  grid : Option GridShape
  baseline : Option NodeId
  deriving DecidableEq

namespace LayoutDecision

/-- The members in the order of output. -/
def outputOrder (d : LayoutDecision) : List NodeId := d.reorder.getD d.members

def isDegenerate (d : LayoutDecision) : Bool := d.flags.contains .degenerate

end LayoutDecision

structure ClassifyOutcome where
  decisions : List LayoutDecision
  /-- Members that could not be given a place. -/
  skipped : List (NodeId × TreeError)

namespace ClassifyOutcome

def empty : ClassifyOutcome := ⟨[], []⟩

def append (a b : ClassifyOutcome) : ClassifyOutcome :=
  ⟨a.decisions ++ b.decisions, a.skipped ++ b.skipped⟩

/-- The decisions on runs that passed no test. -/
def degenerate (o : ClassifyOutcome) : List LayoutDecision :=
  o.decisions.filter LayoutDecision.isDegenerate

end ClassifyOutcome

namespace Classify

/-- The nodes with what has been decided so far. -/
structure State where
  tree : NodeTree
  outcome : ClassifyOutcome

/-! ### One container -/

/-- Members in the order of their boxes along the container. -/
def geometricOrder (t : NodeTree) (container : Container) (members : List NodeId) : List NodeId :=
  let key (id : NodeId) : Scalar :=
    match t.get? id with
    | some n => if container = .linearVertical then n.bounds.y else n.bounds.x
    | none => 0
  stableSort (fun a b => (Scalar.compare (key a) (key b)).isLE) members

/-- Where the placing of members stands. -/
structure Placing where
  tree : NodeTree
  placed : List NodeId
  skipped : List (NodeId × TreeError)

/-- Gives a member the next place. -/
def placeMember (owner : NodeId) (p : Placing) (id : NodeId) : Placing :=
  match p.tree.setRenderParent id owner with
  | .ok t =>
    { p with
      tree := t.modify id fun n => { n with renderPosition := p.placed.length }
      placed := p.placed ++ [id] }
  | .error e => { p with skipped := p.skipped ++ [(id, e)] }

/-- The marks of a member by its box inside the container. -/
def memberFlags (c : LayoutConfig) (container : Container) (content : Rect) (n : Node) : Flags :=
  let b := n.bounds
  let matchesWidth := content.width > 0 && b.width ≥ content.width - c.tolerance
  let flags := if matchesWidth then Flags.empty.insert .matchWidth else .empty
  let flags :=
    if container = .linearHorizontal ∧ n.style.width.percent?.isSome then
      flags.insert .percentWidth
    else flags
  if container = .linearVertical ∧ !matchesWidth ∧ b.x > content.x + c.tolerance then
    if (b.centerX - content.centerX).abs ≤ c.tolerance then flags.insert .centerHorizontal
    else if (b.right - content.right).abs ≤ c.tolerance then flags.insert .alignEnd
    else flags
  else flags

/-- The order of output, where it is not the order of the source. -/
def reordering? (t : NodeTree) (a : Arrangement) (members : List NodeId) : Option (List NodeId) :=
  let geometric := geometricOrder t a.container members
  if a.flags.contains .reversed && decide (geometric ≠ members) then some geometric else none

/-- The box that the members of a container lie in. -/
def contentOf (t : NodeTree) (owner : NodeId) (synthetic : Bool) : Rect :=
  match t.get? owner with
  | some n => if synthetic then n.bounds else n.contentBox
  | none => .zero

/-- Gives the members of a container, its baseline and itself their marks. -/
def mark (c : LayoutConfig) (owner : NodeId) (content : Rect) (a : Arrangement) (flags : Flags)
    (members : List NodeId) (t : NodeTree) : NodeTree :=
  let t := members.foldl (fun t id =>
    t.modify id fun n => n.addFlags (memberFlags c a.container content n)) t
  let t :=
    match a.baseline with
    | some id => t.modify id fun n => { n with flags := n.flags.insert .baselineAnchor }
    | none => t
  t.modify owner fun n => { n with
    container := a.container
    flags := n.flags.union flags
    grid := a.grid }

/-- Gives the members of a container their places and marks, and records the decision. -/
def settle (c : LayoutConfig) (owner : NodeId) (synthetic : Bool) (a : Arrangement)
    (members : List NodeId) (s : State) : State :=
  let reorder := reordering? s.tree a members
  let flags := if reorder.isSome then a.flags else a.flags.erase .reversed
  let p := (reorder.getD members).foldl (placeMember owner) ⟨s.tree, [], []⟩
  let members := members.filter p.placed.contains
  let t := mark c owner (contentOf s.tree owner synthetic) a flags members p.tree
  let decision : LayoutDecision :=
    ⟨owner, synthetic, a.container, flags, members, reorder.map fun _ => p.placed, a.grid,
      a.baseline⟩
  ⟨t, s.outcome.append ⟨[decision], p.skipped⟩⟩

/-! ### Plans carried out -/

mutual

/-- The node of a member, which is made if the member is a group. -/
def realize (c : LayoutConfig) (parent : NodeId) (s : State) :
    Plan → Except TreeError (NodeId × State)
  | .member id => .ok (id, s)
  | .group a members => do
    let boxes := (s.tree.lookup (leavesOfAll members)).map Node.bounds
    let (id, t) ← s.tree.allocGroup parent ((Rect.unionAll? boxes).getD .zero)
    let (ids, s) ← realizeAll c parent { s with tree := t } members
    return (id, settle c id true a ids s)

def realizeAll (c : LayoutConfig) (parent : NodeId) (s : State) :
    List Plan → Except TreeError (List NodeId × State)
  | [] => .ok ([], s)
  | p :: r => do
    let (id, s) ← realize c parent s p
    let (ids, s) ← realizeAll c parent s r
    return (id :: ids, s)

end

/-- Marks the positioned members of a run. -/
def markOverlays (c : LayoutConfig) (t : NodeTree) (parent : Node) (run : List Node) : NodeTree :=
  (Plan.positioned c parent.contentBox run).foldl (fun t n =>
    t.modify n.id fun n => { n with flags := n.flags.insert .overlay }) t

/-- Gives the members of a node's run that have no place in the output theirs. -/
def run (c : LayoutConfig) (t : NodeTree) (parent : NodeId) :
    Except TreeError (ClassifyOutcome × NodeTree) := do
  let ids ← t.pendingRun parent
  if ids.isEmpty then return (.empty, t)
  let p ← t.node parent
  let members := t.lookup ids
  let plan := Plan.ofPending c p members
  let t := markOverlays c t p members
  let (ids, s) ← realizeAll c parent ⟨t, .empty⟩ plan.members
  let s := settle c parent false plan.arrangement ids s
  return (s.outcome, s.tree)

/-- Classifies the runs of some nodes one after another. -/
def runs (c : LayoutConfig) (t : NodeTree) : List NodeId →
    Except TreeError (ClassifyOutcome × NodeTree)
  | [] => .ok (.empty, t)
  | id :: r => do
    let (o, t) ← run c t id
    let (os, t) ← runs c t r
    return (o.append os, t)

/-- Classifies all runs below a root, the deepest first. -/
def document (c : LayoutConfig) (t : NodeTree) (root : NodeId) :
    Except TreeError (ClassifyOutcome × NodeTree) := do
  runs c t (← t.classificationOrder root)

end Classify

end ViewCompiler
