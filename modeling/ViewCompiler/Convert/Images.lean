import ViewCompiler.Convert.Context
import ViewCompiler.Image.Loader

/-!
# Images

The sizes of images, which are asked for once between ingestion and classification.
`Context.loadImages` asks for each source once and gives the answer to all nodes that show it.
-/

namespace ViewCompiler

/-- The nodes that show an image, by its source. -/
def NodeTree.imageSources (t : NodeTree) : SortedMap String (List NodeId) :=
  (t.toList.filter fun n => !n.excluded).foldl (fun m n =>
    match n.imageSource with
    | some source => m.insert source (m.getD source [] ++ [n.id])
    | none => m) .empty

/-- The node of an image with the size of it.  A box without an area takes the size over. -/
def Node.withImageSize (n : Node) (size : Size) : Node :=
  let empty := n.bounds.width ≤ 0 || n.bounds.height ≤ 0
  { n with
    intrinsicSize := some size
    bounds :=
      if empty then { n.bounds with width := size.width, height := size.height } else n.bounds }

namespace Context

/-- Gives the size of an image to the nodes that show it.  An image that cannot be loaded is
reported at the first of them, and has no size. -/
def loadImage (loader : ImageLoader) (c : Context) (image : String × List NodeId) : Context :=
  let (source, nodes) := image
  let (size, c) :=
    match loader source with
    | .ok size => (size, c)
    | .error e =>
      let document := nodes.head?.bind fun id =>
        (c.tree.documentOf id).toOption.bind c.nameOfRoot?
      (Size.zero, c.warn .imageLoad document nodes.head? e.message)
  nodes.foldl (fun c id => c.modifyNode id fun n => n.withImageSize size) c

/-- Loads all images. -/
def loadImages (c : Context) (loader : ImageLoader) : Context :=
  c.tree.imageSources.entries.foldl (loadImage loader) c

end Context

end ViewCompiler
