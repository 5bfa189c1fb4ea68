import ViewCompiler.Layout.Walk
import ViewCompiler.Template.Fragment

/-!
# Assembly

The fragments of all nodes and what their slots are bound to.  Nodes are placed level by level in
any order; a node that comes before its render parent waits for it.

* `Assembly.place`, `Assembly.replace` : give a node its fragment and announce it to the node that
  it renders in;
* `Assembly.finishLevel` : binds what was announced, then carries out the saved orders;
* `Assembly.resolve` : the pieces of a document, with every slot expanded, and every slot that
  could not be.
-/

namespace ViewCompiler

/-- Why a node cannot be placed or an order not carried out. -/
inductive TemplateError where
  | tree (cause : TreeError)
  /-- The render parent does not have the node inside. -/
  | notARenderChild (node parent : NodeId)
  /-- Some members of the order are bound to no slot of its owner. -/
  | partialReorder (owner : NodeId) (missing : List NodeId)
  deriving DecidableEq

def TemplateError.message : TemplateError → String
  | tree cause => cause.message
  | notARenderChild node parent =>
    "Node " ++ toString node ++ " renders under " ++ toString parent ++
      " but is not among its render children"
  | partialReorder owner missing =>
    "Reorder of " ++ toString owner ++ " rejected: " ++ toString missing.length ++
      " member(s) have no fragment yet"

/-- Fragments and the bindings of their slots. -/
structure Assembly where
  fragments : SortedMap NodeId Fragment
  /-- The nodes whose fragment was given from outside. -/
  replaced : List NodeId
  bindings : SortedMap Placeholder NodeId
  /-- What was announced on the open level. -/
  announced : SortedMap Placeholder NodeId
  /-- What waits for the fragment of a slot's owner, by owner. -/
  waiting : SortedMap NodeId (List (Placeholder × NodeId))
  /-- The orders to be carried out, by owner. -/
  orders : SortedMap NodeId (List NodeId)
  levelOpen : Bool

namespace Assembly

def empty : Assembly := ⟨.empty, [], .empty, .empty, .empty, .empty, false⟩

instance : Inhabited Assembly := ⟨empty⟩

def isPlaced (a : Assembly) (node : NodeId) : Bool := a.fragments.contains node

def fragment? (a : Assembly) (node : NodeId) : Option Fragment := a.fragments.get? node

/-- The node that a slot is bound to. -/
def binding? (a : Assembly) (place : Placeholder) : Option NodeId := a.bindings.get? place

/-- How many nodes wait for their render parent. -/
def queued (a : Assembly) : Nat :=
  a.waiting.values.foldl (fun n queue => n + queue.length) 0

/-- Whether the fragment of a slot's owner has the slot. -/
def hasSlot (a : Assembly) (place : Placeholder) : Bool :=
  match a.fragment? place.owner with
  | some f => f.containsSlot place
  | none => false

def bind (a : Assembly) (place : Placeholder) (node : NodeId) : Assembly :=
  { a with bindings := a.bindings.insert place node }

/-! ### Placing -/

/-- Binds a slot that exists, and lets the node wait for one that does not. -/
def commit (a : Assembly) (place : Placeholder) (node : NodeId) : Assembly :=
  if a.hasSlot place then a.bind place node
  else
    let queue := a.waiting.getD place.owner [] ++ [(place, node)]
    { a with waiting := a.waiting.insert place.owner queue }

/-- Binds what waited for a node and fits its fragment. -/
def drain (a : Assembly) (owner : NodeId) : Assembly :=
  match a.waiting.get? owner with
  | none => a
  | some queue =>
    let bound := (queue.filter fun e => a.hasSlot e.1).foldl (fun a e => a.bind e.1 e.2) a
    let rest := queue.filter fun e => !a.hasSlot e.1
    { bound with
      waiting := if rest.isEmpty then a.waiting.erase owner else a.waiting.insert owner rest }

/-- The slot in which a node renders, unless it is the outermost one. -/
def slotOf (t : NodeTree) (node : NodeId) : Except TemplateError (Option Placeholder) :=
  match t.get? node with
  | none => .error (.tree (.unknownNode node))
  | some n =>
    match n.renderParent with
    | none => .ok none
    | some parent =>
      match t.renderOrder parent with
      | .error e => .error (.tree e)
      | .ok siblings =>
        match siblings.idxOf? node with
        | some i => .ok (some ⟨parent, i⟩)
        | none => .error (.notARenderChild node parent)

/-- Announces a node to its render parent: at the end of an open level, or else at once. -/
def announce (a : Assembly) (t : NodeTree) (node : NodeId) :
    Except TemplateError Unit × Assembly :=
  match slotOf t node with
  | .error e => (.error e, a)
  | .ok none => (.ok (), a)
  | .ok (some place) =>
    if a.levelOpen then (.ok (), { a with announced := a.announced.insert place node })
    else (.ok (), a.commit place node)

/-- Announces a node that has just got its fragment, and serves the nodes that waited for it. -/
def settle (a : Assembly) (t : NodeTree) (node : NodeId) : Except TemplateError Unit × Assembly :=
  match a.announce t node with
  | (.error e, a) => (.error e, a)
  | (.ok (), a) => (.ok (), a.drain node)

/-- Binds those children of a node that are leaves, from a position on. -/
def bindLeaves (t : NodeTree) (owner : NodeId) :
    Assembly → Nat → List NodeId → Except TemplateError Unit × Assembly
  | a, _, [] => (.ok (), a)
  | a, i, child :: r =>
    match t.renderOrder child with
    | .error e => (.error (.tree e), a)
    | .ok inner =>
      let a :=
        if inner.isEmpty && !a.replaced.contains child then a.bind ⟨owner, i⟩ child else a
      bindLeaves t owner a (i + 1) r

/-- Gives a node its own fragment, with a slot for each node inside it.  Leaves are bound at once.
A node whose fragment was given from outside keeps it. -/
def place (a : Assembly) (t : NodeTree) (node : NodeId) : Except TemplateError Unit × Assembly :=
  if a.replaced.contains node then a.settle t node
  else
    match t.renderOrder node with
    | .error e => (.error (.tree e), a)
    | .ok children =>
      let a := { a with
        fragments := a.fragments.insert node (.container node children.length) }
      match bindLeaves t node a 0 children with
      | (.error e, a) => (.error e, a)
      | (.ok (), a) => a.settle t node

/-- Gives a node the fragment of a text.  Slot markers in it take part in the assembly. -/
def replace (a : Assembly) (t : NodeTree) (node : NodeId) (text : String) :
    Except TemplateError Unit × Assembly :=
  { a with
    replaced := if a.replaced.contains node then a.replaced else node :: a.replaced
    fragments := a.fragments.insert node (.ofText text) }.settle t node

/-! ### Levels -/

def beginLevel (a : Assembly) : Assembly := { a with levelOpen := true }

/-- Saves the order in which the slots of a node are to be bound at the end of the level. -/
def saveOrder (a : Assembly) (owner : NodeId) (order : List NodeId) : Assembly :=
  { a with orders := a.orders.insert owner order }

/-- The slots of a node by what they are bound to; of two the later one. -/
def slotsByNode (a : Assembly) (owner : NodeId) : SortedMap NodeId Placeholder :=
  .ofList ((a.bindings.entries.filter fun e => e.1.owner = owner).map fun e => (e.2, e.1))

/-- Binds the slots of some members anew, in a given order of the members. -/
def applyOrder (a : Assembly) (owner : NodeId) (order : List NodeId) :
    Except TemplateError Assembly :=
  let bound := a.slotsByNode owner
  let missing := order.filter fun id => !bound.contains id
  if missing.isEmpty then
    let slots := stableSort (fun p q => (compare p q).isLE) (order.filterMap bound.get?)
    .ok ((slots.zip order).foldl (fun a e => a.bind e.1 e.2) a)
  else .error (.partialReorder owner missing)

/-- Carries out the saved order of a node and forgets it. -/
def carryOut (s : Assembly × List TemplateError) (e : NodeId × List NodeId) :
    Assembly × List TemplateError :=
  let a := { s.1 with orders := s.1.orders.erase e.1 }
  match a.applyOrder e.1 e.2 with
  | .ok a => (a, s.2)
  | .error error => (a, s.2 ++ [error])

/-- Binds what was announced on the level, and carries out the saved orders of nodes that have
their fragment.  The orders that could not be carried out are answered. -/
def finishLevel (a : Assembly) : List TemplateError × Assembly :=
  let committed := a.announced.entries.foldl (fun a e => a.commit e.1 e.2)
    { a with announced := .empty }
  let ready := committed.orders.entries.filter fun e => committed.isPlaced e.1
  let (a, rejected) := ready.foldl carryOut (committed, [])
  (rejected, { a with levelOpen := false })

end Assembly

/-! ### Resolution -/

/-- What comes of the expansion of a fragment. -/
structure Expansion where
  pieces : List Piece
  /-- The slots bound to nothing; their markers stand in the output. -/
  unresolved : List Placeholder
  /-- The slots that lead back to a node around them; their markers stand in the output. -/
  cycles : List Placeholder
  /-- How many slots were filled from another document. -/
  crossDocument : Nat
  deriving DecidableEq

namespace Expansion

def empty : Expansion := ⟨[], [], [], 0⟩

instance : Inhabited Expansion := ⟨empty⟩

def append (a b : Expansion) : Expansion :=
  ⟨a.pieces ++ b.pieces, a.unresolved ++ b.unresolved, a.cycles ++ b.cycles,
    a.crossDocument + b.crossDocument⟩

/-- Expansions one after another. -/
def concat : List Expansion → Expansion
  | [] => empty
  | e :: r => e.append (concat r)

def ofPiece (p : Piece) : Expansion := ⟨[p], [], [], 0⟩

/-- The marker of a slot. -/
def ofMarker (place : Placeholder) : Expansion := ofPiece (.raw place.marker)

end Expansion

/-- The expanded pieces of a document. -/
structure Resolution extends Expansion where
  root : NodeId
  deriving DecidableEq

namespace Assembly

/-- The fragment of a node; one that was not placed is a leaf. -/
def fragmentOf (a : Assembly) (node : NodeId) : Fragment := (a.fragment? node).getD (.leaf node)

/-- Expands a piece of a fragment: a slot to what `inner` makes of the node that it is bound to,
unless that is on the path already. -/
def expandPiece (a : Assembly) (t : NodeTree) (root : NodeId) (path : List NodeId)
    (inner : NodeId → Expansion) : Piece → Expansion
  | .slot place =>
    match a.binding? place with
    | none => { Expansion.ofMarker place with unresolved := [place] }
    | some child =>
      if path.contains child then { Expansion.ofMarker place with cycles := [place] }
      else
        let foreign :=
          match t.documentOf child with
          | .ok document => decide (document ≠ root)
          | .error _ => false
        let e := inner child
        { e with crossDocument := e.crossDocument + (if foreign then 1 else 0) }
  | p => .ofPiece p

/-- Expands the slots in the fragment of a node that was reached along `path`, the node
included. -/
def expand (a : Assembly) (t : NodeTree) (root : NodeId) :
    Nat → List NodeId → NodeId → Expansion
  | 0, _, _ => .empty
  | fuel + 1, path, node =>
    .concat ((a.fragmentOf node).pieces.map
      (a.expandPiece t root path fun child => expand a t root fuel (child :: path) child))

/-- The document of a root.  Along a path every node but the first is bound to a slot and none
occurs twice, so no path is longer than the bindings are many, the root added. -/
def resolve (a : Assembly) (t : NodeTree) (root : NodeId) : Resolution :=
  { a.expand t root (a.bindings.size + 1) [root] root with root := root }

/-- The documents of some roots, after everything that waits has been served once more. -/
def resolveAll (a : Assembly) (t : NodeTree) (roots : List NodeId) :
    List Resolution × Assembly :=
  let a := a.waiting.keys.foldl drain a
  (roots.map (a.resolve t), a)

end Assembly

end ViewCompiler
