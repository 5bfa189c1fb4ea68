import ViewCompiler.Layout.Config
import ViewCompiler.Layout.FloatParts

/-!
# Plans

A plan says how the members of a run are grouped and what holds each group, before any node is
changed.  The tests of a run have a fixed order: side by side, on top of each other, split at
floats, on a shared baseline; the frame is left for what passes none of them.
-/

namespace ViewCompiler

/-- How the members of a group lie. -/
structure Arrangement where
  container : Container
  flags : Flags
  grid : Option GridShape
  /-- The member whose baseline the others follow. -/
  baseline : Option NodeId

/-- A member of a group: a node of the run, or a group in turn. -/
inductive Plan where
  | member (id : NodeId)
  | group (arrangement : Arrangement) (members : List Plan)

/-- A group. -/
structure GroupPlan where
  arrangement : Arrangement
  members : List Plan

mutual

/-- The nodes of the run in a plan, in order. -/
def Plan.leaves : Plan → List NodeId
  | .member id => [id]
  | .group _ members => leavesOfAll members

def leavesOfAll : List Plan → List NodeId
  | [] => []
  | p :: r => p.leaves ++ leavesOfAll r

end

namespace GroupPlan

/-- A group without marks. -/
def of (container : Container) (members : List Plan) : GroupPlan :=
  ⟨⟨container, .empty, none, none⟩, members⟩

/-- A group of nodes. -/
def ofRun (container : Container) (run : List Node) : GroupPlan :=
  of container (run.map fun n => .member n.id)

/-- The group with a mark. -/
def mark (g : GroupPlan) (f : Flag) : GroupPlan :=
  { g with arrangement := { g.arrangement with flags := g.arrangement.flags.insert f } }

/-- The group as a member, or its only member instead. -/
def collapse (g : GroupPlan) : Plan :=
  match g.members with
  | [p] => p
  | ps => .group g.arrangement ps

end GroupPlan

namespace Plan

/-- The group of a run that lies along one axis. -/
def axis? (c : LayoutConfig) (content : Rect) (run : List Node) : Option GroupPlan :=
  match run with
  | [n] =>
    if n.isBlockInFlow || n.isForcedBreak then some (.ofRun .linearVertical run)
    else some (.ofRun .linearHorizontal run)
  | _ =>
    if Axis.isHorizontal c.tolerance run then some (.ofRun .linearHorizontal run)
    else if Axis.isVertical content c.tolerance run then some (.ofRun .linearVertical run)
    else none

/-- The group of a run that lies along no axis: on a shared baseline, or free. -/
def free (run : List Node) : GroupPlan :=
  match Axis.anchor? run with
  | some id =>
    let g := GroupPlan.ofRun .relative run
    { g with arrangement := { g.arrangement with baseline := some id } }
  | none => (GroupPlan.ofRun .frame run).mark .degenerate

/-- The group of a run that is not split at floats. -/
def whole (c : LayoutConfig) (content : Rect) (run : List Node) : GroupPlan :=
  (axis? c content run).getD (free run)

/-- A part of a run as a member, if there is anything in it. -/
def part? (group : List Node → GroupPlan) (run : List Node) : Option Plan :=
  match run with
  | [] => none
  | [n] => some (.member n.id)
  | _ =>
    let g := group run
    some (.group g.arrangement g.members)

/-- The floats above the first clear with what wraps around them: one group where they lie side by
side, and otherwise a member for each part. -/
def bandMembers (c : LayoutConfig) (content : Rect) (p : FloatParts) : List Plan :=
  let band := p.leftAbove ++ p.inline ++ p.rightAbove
  if c.floatOverlap && !p.inline.isEmpty && decide (1 < band.length) &&
      Axis.isHorizontal c.tolerance band then
    let g := (GroupPlan.ofRun .linearHorizontal band).mark .floatSplit
    [.group g.arrangement g.members]
  else [p.leftAbove, p.rightAbove, p.inline].filterMap (part? (whole c content))

/-- The group of the parts of a run; if there is one part only and it is a group, that group. -/
def stack (members : List Plan) : GroupPlan :=
  match members with
  | [.group arrangement inner] => ⟨arrangement, inner⟩
  | members => (GroupPlan.of .linearVertical members).mark .floatSplit

/-- The group of a run. -/
def ofRun (c : LayoutConfig) (content : Rect) (run : List Node) : GroupPlan :=
  match axis? c content run with
  | some g => g
  | none =>
    if h : run.any Node.isFloating = true then
      let p := FloatParts.ofRun run
      let below : List Plan :=
        match p.below with
        | [] => []
        | [n] => [.member n.id]
        | _ =>
          have := FloatParts.length_below_lt h
          let g := ofRun c content p.below
          [.group g.arrangement g.members]
      stack ((part? (whole c content) p.above).toList ++ bandMembers c content p ++
        [p.leftBelow, p.rightBelow].filterMap (part? (whole c content)) ++ below)
    else free run
termination_by run.length

/-- Whether the members of a container are shown against the order of the source. -/
def isReversed (style : Style) : Container → Bool
  | .linearHorizontal => style.direction == .rtl || style.flexDirection == .rowReverse
  | .linearVertical => style.flexDirection == .columnReverse
  | _ => false

/-- The group of the members of a node's run that are in the flow: a grid or columns if the node
asks for them, and else what the run itself shows. -/
def ofParent (c : LayoutConfig) (parent : Node) (run : List Node) : GroupPlan :=
  if parent.style.display.isGridLike then
    let g := GroupPlan.ofRun .grid run
    { g with arrangement := { g.arrangement with
      grid := some (Axis.gridShape c.tolerance (run.map Node.bounds)) } }
  else if parent.style.columnCount > 1 then (GroupPlan.ofRun .frame run).mark .multiColumn
  else
    let g := ofRun c parent.contentBox run
    if isReversed parent.style g.arrangement.container then g.mark .reversed else g

/-- Whether a box has left the flow and does not lie at the origin of the content. -/
def isPositioned (c : LayoutConfig) (content : Rect) (n : Node) : Bool :=
  let anchored := (n.bounds.x - content.x).abs ≤ c.originTolerance &&
    (n.bounds.y - content.y).abs ≤ c.originTolerance
  n.style.position.isOutOfFlow && !anchored

/-- The positioned members of a run in the order in which they are layered. -/
def positioned (c : LayoutConfig) (content : Rect) (run : List Node) : List Node :=
  stableSort (fun a b => a.style.zIndex ≤ b.style.zIndex)
    (run.filter (isPositioned c content))

/-- The group of all members of a run: those in the flow, or a frame that layers the positioned ones
over them. -/
def ofPending (c : LayoutConfig) (parent : Node) (run : List Node) : GroupPlan :=
  let inFlow := run.filter fun n => !isPositioned c parent.contentBox n
  let layered := positioned c parent.contentBox run
  let flow : Option GroupPlan := if inFlow.isEmpty then none else some (ofParent c parent inFlow)
  match flow, layered with
  | some g, [] => g
  | flow, layered =>
    .of .frame ((flow.map GroupPlan.collapse).toList ++ layered.map fun n => .member n.id)

end Plan

end ViewCompiler
