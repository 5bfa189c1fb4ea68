import ViewCompiler.Geometry
import ViewCompiler.Identity
import ViewCompiler.Layout.Container
import ViewCompiler.Layout.Flags
import ViewCompiler.Style

/-!
# Nodes

A node stands for an element, a run of text, or a box made by the compiler.  Nodes refer to each
other by number, in four relations: `parent` is the structure of the source, `documentParent` the
nearest ancestor with a layout of its own, `renderParent` the structure of the output, and
`companion` a reference only.
-/

namespace ViewCompiler

/-- What a node stands for. -/
inductive NodeKind where
  /-- The root of a document. -/
  | root
  | element
  | text
  /-- A box around members of a run, made by the classifier. -/
  | group
  /-- A named place outside all documents. -/
  | host
  deriving DecidableEq, Repr

namespace NodeKind

def all : List NodeKind := [root, element, text, group, host]

def name : NodeKind → String
  | root => "Root"
  | element => "Element"
  | text => "Text"
  | group => "Group"
  | host => "Host"

end NodeKind

structure Node where
  id : NodeId
  kind : NodeKind
  tag : String
  element : Option Handle
  depth : Nat
  renderDepth : Nat
  /-- The place among the children of the parent. -/
  siblingIndex : Nat
  /-- The place in the output of the render parent; below zero the order of attachment counts. -/
  renderPosition : Int
  /-- The box with border and padding. -/
  bounds : Rect
  margin : Edges
  border : Edges
  padding : Edges
  /-- The size of an image. -/
  intrinsicSize : Option Size
  style : Style
  /-- The attributes in the source. -/
  sourceAttributes : SortedMap String String
  /-- The attributes in the output. -/
  attributes : SortedMap String String
  /-- The shared style that the output refers to. -/
  styleRef : Option String
  flags : Flags
  container : Container
  grid : Option GridShape
  visible : Bool
  /-- Has its place in the output. -/
  rendered : Bool
  /-- Takes no part in the layout. -/
  excluded : Bool
  parent : Option NodeId
  documentParent : Option NodeId
  renderParent : Option NodeId
  companion : Option NodeId
  children : List NodeId
  /-- The members of the node's layout run. -/
  layoutChildren : List NodeId
  /-- The nodes placed in the node's output, in order of attachment. -/
  renderChildren : List NodeId
  text : Option String
  imageSource : Option String
  /-- The labels of a selection. -/
  entries : List String
  deriving DecidableEq

namespace Node

/-- A node that is not part of anything.  Roots and hosts have their place in the output from the
start, and a host takes relocated nodes. -/
def new (id : NodeId) (kind : NodeKind) (tag : String) : Node where
  id := id
  kind := kind
  tag := tag
  element := none
  depth := 0
  renderDepth := 0
  siblingIndex := 0
  renderPosition := -1
  bounds := .zero
  margin := .zero
  border := .zero
  padding := .zero
  intrinsicSize := none
  style := .empty
  sourceAttributes := .empty
  attributes := .empty
  styleRef := none
  flags := if kind = .host then Flags.empty.insert .relocationTarget else .empty
  container := .leaf
  grid := none
  visible := true
  rendered := kind = .root ∨ kind = .host
  excluded := false
  parent := none
  documentParent := none
  renderParent := none
  companion := none
  children := []
  layoutChildren := []
  renderChildren := []
  text := none
  imageSource := none
  entries := []

instance : Inhabited Node := ⟨new 0 .element ""⟩

/-- The box with its margin. -/
def marginBox (n : Node) : Rect := n.bounds.expand n.margin

/-- The box that the children are laid out in. -/
def contentBox (n : Node) : Rect := n.bounds.contract (n.border + n.padding)

def isText (n : Node) : Bool := n.kind == .text || n.text.isSome

def isImage (n : Node) : Bool := n.imageSource.isSome

/-- Text or an image with nothing inside. -/
def isLeafContent (n : Node) : Bool := n.layoutChildren.isEmpty && (n.isText || n.isImage)

def isForcedBreak (n : Node) : Bool := Text.asciiLower n.tag == "br"

/-- An attribute in the source. -/
def source? (n : Node) (key : String) : Option String := n.sourceAttributes.get? key

/-- The node with some marks added. -/
def addFlags (n : Node) (f : Flags) : Node := { n with flags := n.flags.union f }

end Node

end ViewCompiler
