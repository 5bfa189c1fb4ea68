import ViewCompiler.Layout.NodeTree

/-!
# Walks over nodes

Every walk visits a node at most once, so the number of nodes bounds its steps.

* `NodeTree.ancestors`, `NodeTree.documentOf` : upwards, noticing a loop;
* `NodeTree.layoutSubtree`, `NodeTree.renderSubtree` : downwards, parents first;
* `NodeTree.classificationOrder` : the nodes with a layout run, the deepest first;
* `NodeTree.computeRenderDepths` : the depth of each node in the output.
-/

namespace ViewCompiler

namespace NodeTree

/-! ### Upwards -/

/-- Follows links from `current` on, which was reached from `start` over the nodes in `seen`. -/
def climb (t : NodeTree) (link : Node → Option NodeId) (start : NodeId) :
    Nat → List NodeId → NodeId → Except TreeError (List NodeId)
  | 0, _, _ => .error (.ancestorCycle start)
  | fuel + 1, seen, current =>
    if seen.contains current then .error (.ancestorCycle start)
    else
      match t.get? current with
      | none => .error (.unknownNode current)
      | some n =>
        match link n with
        | none => .ok [current]
        | some next => do
          let r ← t.climb link start fuel (current :: seen) next
          return current :: r

/-- A node and all that its links lead to.  After as many steps as there are nodes the next one has
been met before or does not exist. -/
def chain (t : NodeTree) (link : Node → Option NodeId) (id : NodeId) :
    Except TreeError (List NodeId) :=
  t.climb link id (t.size + 1) [] id

/-- The layout ancestors of a node, the nearest first. -/
def ancestors (t : NodeTree) (id : NodeId) : Except TreeError (List NodeId) := do
  let c ← t.chain Node.documentParent id
  return c.tail

/-- The root above a node in the source. -/
def documentOf (t : NodeTree) (id : NodeId) : Except TreeError NodeId := do
  let c ← t.chain Node.parent id
  return c.getLastD id

/-- The first node of a document that has the given `id` in the source. -/
def findBySourceId (t : NodeTree) (root : NodeId) (sourceId : String) : Option NodeId :=
  (t.toList.find? fun n =>
    n.source? "id" == some sourceId &&
      match t.documentOf n.id with
      | .ok d => d == root
      | .error _ => false).map Node.id

/-! ### Downwards -/

/-- Visits the nodes on a stack and those below them in the layout.  A node met twice is an
error. -/
def descendLayout (t : NodeTree) : Nat → List NodeId → List NodeId → Except TreeError (List NodeId)
  | _, seen, [] => .ok seen.reverse
  | 0, _, id :: _ => .error (.ancestorCycle id)
  | fuel + 1, seen, id :: stack =>
    if seen.contains id then .error (.ancestorCycle id)
    else
      match t.get? id with
      | none => .error (.unknownNode id)
      | some n => t.descendLayout fuel (id :: seen) (n.layoutChildren ++ stack)

/-- All nodes that are reached over layout runs, parents first. -/
def layoutSubtree (t : NodeTree) (root : NodeId) : Except TreeError (List NodeId) :=
  t.descendLayout (t.size + 1) [] [root]

/-- Visits the nodes on a stack and those below them in the output.  A node met twice is passed
over. -/
def descendRender (t : NodeTree) : Nat → List NodeId → List NodeId → Except TreeError (List NodeId)
  | fuel, seen, stack =>
    match stack.dropWhile seen.contains, fuel with
    | [], _ => .ok seen.reverse
    | id :: _, 0 => .error (.ancestorCycle id)
    | id :: stack, fuel + 1 =>
      match t.renderOrder id with
      | .error e => .error e
      | .ok children => t.descendRender fuel (id :: seen) (children ++ stack)

/-- All nodes that are reached in the output, parents first. -/
def renderSubtree (t : NodeTree) (root : NodeId) : Except TreeError (List NodeId) :=
  t.descendRender (t.size + 1) [] [root]

/-- The nodes below a root that have a run, the deepest first, and in order of their numbers where
depths are equal. -/
def classificationOrder (t : NodeTree) (root : NodeId) : Except TreeError (List NodeId) := do
  let ids ← t.layoutSubtree root
  let parents := (t.lookup ids).filter fun n => !n.excluded && !n.layoutChildren.isEmpty
  let before (a b : Node) : Bool := decide (b.depth < a.depth ∨ (a.depth = b.depth ∧ a.id ≤ b.id))
  return (stableSort before parents).map Node.id

/-! ### Depths in the output -/

/-- Gives the nodes of one level their depth, as far as they have none yet, and collects those
inside them. -/
def visitLevel (depth : Nat) (state : NodeTree × List NodeId × List NodeId) (id : NodeId) :
    NodeTree × List NodeId × List NodeId :=
  let (t, seen, next) := state
  if seen.contains id then state
  else
    match t.get? id with
    | none => (t, id :: seen, next)
    | some n =>
      (t.modify id fun n => { n with renderDepth := depth }, id :: seen, next ++ n.renderChildren)

/-- Gives the nodes of a level and of all levels below it their depths. -/
def visitLevels (t : NodeTree) (seen : List NodeId) (depth : Nat) :
    Nat → List NodeId → NodeTree
  | _, [] => t
  | 0, _ => t
  | fuel + 1, level =>
    let (t, seen, next) := level.foldl (visitLevel depth) (t, seen, [])
    t.visitLevels seen (depth + 1) fuel next

/-- Gives each node its depth in the output: zero without a render parent, and one more than the
render parent otherwise. -/
def computeRenderDepths (t : NodeTree) : NodeTree :=
  let top := (t.toList.filter fun n => n.renderParent.isNone).map Node.id
  t.visitLevels [] 0 (t.size + 1) top

/-- Whether a node's depth fits that of its render parent. -/
def depthFits (t : NodeTree) (n : Node) : Bool :=
  match n.renderParent.bind t.get? with
  | some p => n.renderDepth == p.renderDepth + 1
  | none => n.renderDepth == 0

/-- The nodes whose depth does not fit that of their render parent. -/
def renderDepthViolations (t : NodeTree) : List NodeId :=
  (t.toList.filter fun n => !t.depthFits n).map Node.id

end NodeTree

end ViewCompiler
