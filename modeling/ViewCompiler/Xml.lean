/-!
# XML documents

The one shape of document that resource files have: a declaration and a tree of elements, each tag
on a line of its own.

* `Xml.escape` : text and attribute values, with the five entities;
* `Xml.document` : the text of a document.
-/

namespace ViewCompiler

namespace Xml

/-- A character in text or in an attribute value. -/
def escapeChar (c : Char) : List Char :=
  if c = '<' then "&lt;".toList
  else if c = '>' then "&gt;".toList
  else if c = '&' then "&amp;".toList
  else if c = '\'' then "&apos;".toList
  else if c = '"' then "&quot;".toList
  else [c]

/-- Text or an attribute value. -/
def escape (s : String) : String := String.ofList (s.toList.flatMap escapeChar)

/-- The first line of every document. -/
def declaration : String := "<?xml version=\"1.0\" encoding=\"utf-8\"?>"

/-- An element: with text, with elements inside, or with neither and closed at once. -/
inductive Element where
  | text (tag : String) (attributes : List (String × String)) (text : String)
  | nested (tag : String) (attributes : List (String × String)) (children : List Element)
  | closed (tag : String) (attributes : List (String × String))

/-- A tag's name with its attributes. -/
def head (tag : String) (attributes : List (String × String)) : String :=
  tag ++ String.join (attributes.map fun (k, v) => " " ++ k ++ "=\"" ++ escape v ++ "\"")

/-- The blanks in front of a line, four for each level. -/
def indent (depth : Nat) : String := String.ofList (List.replicate (4 * depth) ' ')

mutual

/-- The lines of an element at a depth.  The end of an element with text stays on its line. -/
def Element.lines (depth : Nat) : Element → List String
  | .text tag attributes text =>
    [indent depth ++ "<" ++ head tag attributes ++ ">" ++ escape text ++ "</" ++ tag ++ ">"]
  | .closed tag attributes => [indent depth ++ "<" ++ head tag attributes ++ "/>"]
  | .nested tag attributes children =>
    (indent depth ++ "<" ++ head tag attributes ++ ">") ::
      (linesOfAll (depth + 1) children ++ [indent depth ++ "</" ++ tag ++ ">"])

def linesOfAll (depth : Nat) : List Element → List String
  | [] => []
  | e :: r => e.lines depth ++ linesOfAll depth r

end

/-- The text of a document. -/
def document (root : Element) : String :=
  String.join ((declaration :: root.lines 0).map (· ++ "\n"))

end Xml

end ViewCompiler
