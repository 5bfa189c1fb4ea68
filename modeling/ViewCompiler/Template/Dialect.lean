import ViewCompiler.Layout.NodeTree
import ViewCompiler.Resource.Reference

/-!
# Dialects

The words of a target platform: how it calls containers and leaves, and how it says what was
measured of a node.

* `Dialect.elementTag` : the name of a node's element;
* `Dialect.finalize` : the attributes of a node, with their values stored.
-/

namespace ViewCompiler

/-- The element names and the attributes of a platform. -/
structure Dialect where
  containerTag : Container → String
  leafTag : Node → String
  /-- The attributes of the outermost element of a document. -/
  rootAttributes : List (String × String)
  /-- The attribute that refers to a shared style. -/
  styleAttribute : String
  /-- The attributes of a node, in the order in which their values are stored. -/
  attributes : NodeTree → NodeId → List (String × AttributeValue)

namespace Dialect

/-- The element name of a node.  A node with others inside is a container; one without a decision,
such as a host, is a frame. -/
def elementTag (d : Dialect) (t : NodeTree) (n : Node) : String :=
  if n.container = .leaf then
    match t.renderOrder n.id with
    | .ok (_ :: _) => d.containerTag .frame
    | _ => d.leafTag n
  else d.containerTag n.container

/-- The attributes of a node as they are written, and the store with their values. -/
def finalize (d : Dialect) (t : NodeTree) (id : NodeId) (s : ValueStore) :
    SortedMap String String × ValueStore :=
  let (attributes, s) := s.referAll (d.attributes t id)
  (.ofList attributes, s)

end Dialect

end ViewCompiler
