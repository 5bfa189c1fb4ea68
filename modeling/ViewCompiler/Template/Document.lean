import ViewCompiler.Template.Dialect
import ViewCompiler.Template.Fragment
import ViewCompiler.Text.Lines

/-!
# Documents

The text of a view document.  `Dialect.document` writes the pieces of a resolution one after
another and indents each by the number of elements that are open.
-/

namespace ViewCompiler

namespace Dialect

/-- A line at a depth. -/
def line (depth : Nat) (text : String) : String := Xml.indent depth ++ text ++ "\n"

/-- The attributes of an element: those of the outermost one, the reference to its style, and its
own. -/
def writtenAttributes (d : Dialect) (n : Node) (outermost : Bool) : List (String × String) :=
  (if outermost then d.rootAttributes else []) ++
    (n.styleRef.toList.map fun style => (d.styleAttribute, "@style/" ++ style)) ++
    n.attributes.entries

/-- The start of an element, with each attribute on a line of its own. -/
def startTag (d : Dialect) (t : NodeTree) (depth : Nat) (outermost : Bool) (n : Node)
    (finish : String) : String :=
  let attributes := (d.writtenAttributes n outermost).map fun (name, value) =>
    "\n" ++ Xml.indent (depth + 1) ++ name ++ "=\"" ++ Xml.escape value ++ "\""
  line depth ("<" ++ d.elementTag t n ++ String.join attributes ++ finish)

/-- Writes pieces from a depth on; `outermost` until the first element has been written. -/
def write (d : Dialect) (t : NodeTree) : Nat → Bool → List Piece → String
  | _, _, [] => ""
  | depth, outermost, .opening id :: r =>
    ((t.get? id).map fun n => d.startTag t depth outermost n ">").getD "" ++
      d.write t (depth + 1) false r
  | depth, outermost, .selfClosing id :: r =>
    ((t.get? id).map fun n => d.startTag t depth outermost n " />").getD "" ++
      d.write t depth false r
  | depth, outermost, .closing id :: r =>
    ((t.get? id).map fun n => line (depth - 1) ("</" ++ d.elementTag t n ++ ">")).getD "" ++
      d.write t (depth - 1) outermost r
  | depth, outermost, .raw text :: r =>
    String.join ((Text.lines text).map (line depth)) ++ d.write t depth outermost r
  | depth, outermost, .slot place :: r =>
    line depth place.marker ++ d.write t depth outermost r

/-- The text of a document. -/
def document (d : Dialect) (t : NodeTree) (pieces : List Piece) : String :=
  Xml.declaration ++ "\n" ++ d.write t 0 true pieces

end Dialect

end ViewCompiler
