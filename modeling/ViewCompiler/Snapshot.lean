import ViewCompiler.Json.Reader
import ViewCompiler.Provider

/-!
# Snapshots

A snapshot holds the elements of each document as a tree.  `Snapshot.provider` numbers the elements
depth first, from `0` on through all documents, and answers for them.
-/

namespace ViewCompiler

/-- What a snapshot has of an element, without those inside it. -/
structure SnapshotBox where
  tag : String
  /-- The box with border and padding; none if the element could not be measured. -/
  bounds : Option Rect
  margin : Edges
  border : Edges
  padding : Edges
  /-- The computed style. -/
  style : SortedMap String String
  /-- The attributes in the source. -/
  attributes : SortedMap String String
  text : Option String
  imageSource : Option String

namespace SnapshotBox

def empty : SnapshotBox := ⟨"", none, .zero, .zero, .zero, .empty, .empty, none, none⟩

instance : Inhabited SnapshotBox := ⟨empty⟩

/-- What was measured: everything, or nothing without bounds. -/
def measure? (b : SnapshotBox) : Option BoxMeasure :=
  b.bounds.map fun bounds =>
    ⟨b.tag, bounds, b.margin, b.border, b.padding, b.style, b.attributes, b.text, b.imageSource⟩

end SnapshotBox

/-- An element of a snapshot, with those inside it. -/
inductive SnapshotElement where
  | node (box : SnapshotBox) (children : List SnapshotElement)

/-- The trees of elements of some documents. -/
structure Snapshot where
  documents : List (String × Option SnapshotElement)

/-! ### Reading -/

namespace SnapshotElement

/-- Reads a value, which may only be an array or object if another level is allowed. -/
def within {α : Type} (levels : Nat) (read : Json → Option α) (j : Json) : Option α :=
  if levels = 0 && j.isContainer then none else read j

/-- Reads an element with at most `levels` arrays and objects inside each other; what is missing is
empty. -/
def ofJson? : Nat → Json → Option SnapshotElement
  | 0, _ => none
  | levels + 1, j => do
    match ← j.fields? ["tag", "bounds", "margin", "border", "padding", "style", "attributes",
        "text", "imageSrc", "children"] with
    | [tag, bounds, margin, border, padding, style, attributes, text, image, children] =>
      let edges := Json.withDefault Edges.zero (within levels Edges.ofJson?)
      let map := Json.withDefault .empty (within levels BoxMeasure.mapOfJson?)
      let word := Json.withDefault none (Json.nullable Json.string?)
      let tag ← Json.withDefault "" Json.string? tag
      let bounds ← Json.withDefault none (Json.nullable (within levels Rect.ofJson?)) bounds
      let margin ← edges margin
      let border ← edges border
      let padding ← edges padding
      let style ← map style
      let attributes ← map attributes
      let text ← word text
      let image ← word image
      let items ← Json.withDefault [] Json.items? children
      let children ←
        match levels with
        | 0 => if children.isSome then none else some []
        | l + 1 => items.mapM fun item => ofJson? l item
      return .node ⟨tag, bounds, margin, border, padding, style, attributes, text, image⟩ children
    | _ => none

end SnapshotElement

namespace Snapshot

/-- Reads a document; its root may be missing. -/
def documentOfJson? (levels : Nat) (j : Json) : Option (String × Option SnapshotElement) := do
  match ← j.fields? ["name", "root"] with
  | [name, root] =>
    let name ← Json.required Json.string? name
    let root ← Json.withDefault none (Json.nullable (SnapshotElement.ofJson? levels)) root
    return (name, root)
  | _ => none

/-- Reads a snapshot with at most `levels + 3` arrays and objects inside each other. -/
def ofJson? (levels : Nat) (j : Json) : Option Snapshot := do
  match ← j.fields? ["documents"] with
  | [documents] =>
    let items ← Json.required Json.items? documents
    return ⟨← items.mapM (documentOfJson? levels)⟩
  | _ => none

/-- Reads a snapshot from a value. -/
def ofValue? (j : Json) : Option Snapshot := ofJson? j.depth j

/-- Reads a snapshot from a text. -/
def ofText? (s : String) : Option Snapshot :=
  (Json.ofText? s).bind (ofJson? (Json.maxDepth - 3))

end Snapshot

/-! ### The provider -/

namespace SnapshotElement

/-- An element with the numbers of those inside it. -/
structure Entry where
  measure : Option BoxMeasure
  children : List Handle

mutual

/-- The entries of an element numbered `h` and of all inside it, in the order of their numbers. -/
def flatten (h : Handle) : SnapshotElement → List Entry
  | .node box children =>
    let (handles, entries) := flattenAll (h + 1) children
    ⟨box.measure?, handles⟩ :: entries

/-- The numbers of elements of which the first is numbered `h`, and the entries of them and of all
inside them. -/
def flattenAll (h : Handle) : List SnapshotElement → List Handle × List Entry
  | [] => ([], [])
  | e :: r =>
    let entries := flatten h e
    let (handles, rest) := flattenAll (h + entries.length) r
    (h :: handles, entries ++ rest)

end

/-- What a provider says of an entry. -/
def Entry.provided (h : Handle) (e : Entry) : ProvidedElement where
  measure :=
    match e.measure with
    | some m => .ok m
    | none => .error (.unmeasurable h "no bounds in snapshot")
  children := e.children

end SnapshotElement

namespace Snapshot

/-- The documents with the numbers of their roots, and the entries of all elements, where the first
element is numbered `h`. -/
def number (h : Handle) :
    List (String × Option SnapshotElement) → List DocumentRoot × List SnapshotElement.Entry
  | [] => ([], [])
  | (name, none) :: r =>
    let (documents, entries) := number h r
    (⟨name, none⟩ :: documents, entries)
  | (name, some e) :: r =>
    let here := e.flatten h
    let (documents, entries) := number (h + here.length) r
    (⟨name, some h⟩ :: documents, here ++ entries)

/-- The number of elements. -/
def elementCount (s : Snapshot) : Nat := (number 0 s.documents).2.length

/-- The provider that answers for the elements of a snapshot. -/
def provider (s : Snapshot) : Provider :=
  let (documents, entries) := number 0 s.documents
  .ofElements documents
    (entries.zipIdx.map fun (e, h) => e.provided h).toArray

end Snapshot

end ViewCompiler
