import ViewCompiler.Layout.Node
import ViewCompiler.StableSort

/-!
# Trees of nodes

All nodes of a conversion, by number, and the operations that make nodes and connect them.

* `NodeTree.alloc`, `NodeTree.attach`, `NodeTree.allocGroup` : the structure of the source;
* `NodeTree.setRenderParent`, `NodeTree.relocate` : the structure of the output, in which a node
  gets its place once;
* `NodeTree.renderOrder` : the nodes inside another one, in the order of output.
-/

namespace ViewCompiler

/-- Why an operation on nodes fails. -/
inductive TreeError where
  | unknownNode (id : NodeId)
  | renderParentReassigned (node existing requested : NodeId)
  | ancestorCycle (id : NodeId)
  deriving DecidableEq

def TreeError.message : TreeError → String
  | unknownNode id => "Node " ++ toString id ++ " does not exist"
  | renderParentReassigned node existing requested =>
    "Node " ++ toString node ++ " already renders under " ++ toString existing ++
      "; refusing to move it under " ++ toString requested
  | ancestorCycle id => "Ancestor chain of node " ++ toString id ++ " loops back on itself"

/-- Nodes by number, and the roots and hosts among them. -/
structure NodeTree where
  nodes : Array Node
  roots : List NodeId
  /-- Every node knows its number. -/
  numbered : ∀ (i : Nat) (n : Node), nodes[i]? = some n → n.id = i

namespace NodeTree

def empty : NodeTree := ⟨#[], [], by simp⟩

instance : Inhabited NodeTree := ⟨empty⟩

def size (t : NodeTree) : Nat := t.nodes.size

def get? (t : NodeTree) (id : NodeId) : Option Node := t.nodes[id]?

/-- The node with a number. -/
def node (t : NodeTree) (id : NodeId) : Except TreeError Node :=
  match t.get? id with
  | some n => .ok n
  | none => .error (.unknownNode id)

/-- Whether there is a node with a number. -/
def contains (t : NodeTree) (id : NodeId) : Bool := (t.get? id).isSome

/-- All nodes, in order. -/
def toList (t : NodeTree) : List Node := t.nodes.toList

/-- Changes a node, if there is one with that number.  It keeps the number. -/
def modify (t : NodeTree) (id : NodeId) (f : Node → Node) : NodeTree where
  nodes := t.nodes.modify id fun n => { f n with id := n.id }
  roots := t.roots
  numbered i n h := by
    rw [Array.getElem?_modify] at h
    split at h
    · obtain ⟨m, hm, rfl⟩ := Option.map_eq_some_iff.1 h
      exact t.numbered i m hm
    · exact t.numbered i n h

/-- The nodes with the given numbers, as far as there are any. -/
def lookup (t : NodeTree) (ids : List NodeId) : List Node := ids.filterMap t.get?

@[simp] theorem size_modify (t : NodeTree) (id : NodeId) (f : Node → Node) :
    (t.modify id f).size = t.size := by simp [modify, size]

theorem get?_modify (t : NodeTree) (id i : NodeId) (f : Node → Node) :
    (t.modify id f).get? i =
      if id = i then (t.get? i).map fun n => { f n with id := n.id } else t.get? i := by
  simp [modify, get?, Array.getElem?_modify]

theorem id_of_get? {t : NodeTree} {i : NodeId} {n : Node} (h : t.get? i = some n) : n.id = i :=
  t.numbered i n h

/-! ### The structure of the source -/

/-- Makes a node. -/
def alloc (t : NodeTree) (kind : NodeKind) (tag : String) : NodeId × NodeTree :=
  let id := t.size
  (id, {
    nodes := t.nodes.push (.new id kind tag)
    roots := if kind = .root ∨ kind = .host then t.roots ++ [id] else t.roots
    numbered := fun i n h => by
      rw [Array.getElem?_push] at h
      split at h
      · obtain rfl := Option.some.inj h
        exact (‹i = _›).symm
      · exact t.numbered i n h })

/-- A node with one more child. -/
def addChild (child : NodeId) (n : Node) : Node := { n with children := n.children ++ [child] }

/-- A node with one more member in its run. -/
def addMember (child : NodeId) (n : Node) : Node :=
  { n with layoutChildren := n.layoutChildren ++ [child] }

/-- A node among the children of another one. -/
def under (parent : NodeId) (layoutParent : Option NodeId) (index depth : Nat) (n : Node) : Node :=
  { n with
    parent := some parent
    documentParent := layoutParent
    siblingIndex := index
    depth := depth }

/-- Puts a node last among the children of another one and, if a layout parent is given, last in
its run.  The node is one deeper than the layout parent or else than the parent.  A layout parent
that does not exist is noticed after the node is among the children. -/
def attach (t : NodeTree) (parent child : NodeId) (layoutParent : Option NodeId) :
    Except TreeError Unit × NodeTree :=
  match t.get? child, t.get? parent with
  | none, _ => (.error (.unknownNode child), t)
  | some _, none => (.error (.unknownNode parent), t)
  | some _, some p =>
    let t := t.modify parent (addChild child)
    let place (t : NodeTree) (above : Node) : Except TreeError Unit × NodeTree :=
      (.ok (), t.modify child (under parent layoutParent p.children.length (above.depth + 1)))
    match layoutParent with
    | none => place t p
    | some l =>
      match t.get? l with
      | none => (.error (.unknownNode l), t)
      | some above => place (t.modify l (addMember child)) above

/-- Makes a box around members of a run. -/
def allocGroup (t : NodeTree) (parent : NodeId) (bounds : Rect) :
    Except TreeError (NodeId × NodeTree) :=
  match t.get? parent with
  | none => .error (.unknownNode parent)
  | some p =>
    let (id, t) := t.alloc .group "group"
    .ok (id, t.modify id fun n => { n with
      parent := some parent
      documentParent := some parent
      depth := p.depth + 1
      bounds := bounds
      style := n.style.set "display" "block" })

/-! ### The structure of the output -/

/-- The members of a node's run that have no place in the output yet. -/
def pendingRun (t : NodeTree) (parent : NodeId) : Except TreeError (List NodeId) :=
  match t.get? parent with
  | none => .error (.unknownNode parent)
  | some p =>
    .ok (p.layoutChildren.filter fun id =>
      match t.get? id with
      | some n => !n.excluded && !n.rendered
      | none => false)

/-- Gives a node its place in the output of another one, which it keeps. -/
def setRenderParent (t : NodeTree) (child parent : NodeId) : Except TreeError NodeTree :=
  match t.get? parent, t.get? child with
  | none, _ => .error (.unknownNode parent)
  | some _, none => .error (.unknownNode child)
  | some _, some c =>
    match c.renderParent with
    | some existing => .error (.renderParentReassigned child existing parent)
    | none =>
      let t := t.modify child fun n => { n with renderParent := some parent, rendered := true }
      .ok (t.modify parent fun n => { n with renderChildren := n.renderChildren ++ [child] })

/-- Gives a node its place in the output of a node other than its own parent. -/
def relocate (t : NodeTree) (child target : NodeId) : Except TreeError NodeTree :=
  (t.setRenderParent child target).map fun t =>
    t.modify child fun n => { n with flags := n.flags.insert .relocated }

/-- Orders places: those from zero on by number, in front of those below zero. -/
def positionLE (a b : Int) : Bool :=
  if a < 0 then decide (b < 0 ∧ a ≤ b) else decide (b < 0 ∨ a ≤ b)

/-- The place of a node in the output, below zero for one that does not exist. -/
def position (t : NodeTree) (id : NodeId) : Int :=
  match t.get? id with
  | some n => n.renderPosition
  | none => -1

/-- The nodes inside another one in the order of output: by place, and in order of attachment
where places are equal. -/
def renderOrder (t : NodeTree) (id : NodeId) : Except TreeError (List NodeId) :=
  match t.get? id with
  | none => .error (.unknownNode id)
  | some n =>
    .ok (stableSort (fun a b => positionLE (t.position a) (t.position b)) n.renderChildren)

end NodeTree

end ViewCompiler
