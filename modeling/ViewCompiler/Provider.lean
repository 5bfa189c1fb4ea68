import ViewCompiler.Geometry
import ViewCompiler.Identity
import ViewCompiler.SortedMap

/-!
# Providers of measured boxes

A provider knows the boxes of a set of documents: which documents there are, what was measured of
an element, and which elements are inside it.  Every element is asked for at most once in a
conversion.
-/

namespace ViewCompiler

/-- Why a provider does not give an element's measure. -/
inductive ProviderError where
  | unknownElement (element : Handle)
  | unmeasurable (element : Handle) (reason : String)
  | other (reason : String)
  deriving DecidableEq

def ProviderError.message : ProviderError → String
  | unknownElement h => "Element " ++ Handle.text h ++ " is unknown to the provider"
  | unmeasurable h reason => "Element " ++ Handle.text h ++ " could not be measured: " ++ reason
  | other reason => "Provider failure: " ++ reason

/-- A document: its name and its root element, if it has one. -/
structure DocumentRoot where
  name : String
  root : Option Handle
  deriving DecidableEq

/-- What is known of one element. -/
structure BoxMeasure where
  tag : String
  /-- The box with border and padding, in document pixels. -/
  bounds : Rect
  margin : Edges
  border : Edges
  padding : Edges
  /-- The computed style. -/
  style : SortedMap String String
  /-- The attributes in the source. -/
  attributes : SortedMap String String
  /-- The text of a text run, or of an element with nothing but text inside. -/
  text : Option String
  imageSource : Option String

namespace BoxMeasure

def empty : BoxMeasure := ⟨"", .zero, .zero, .zero, .zero, .empty, .empty, none, none⟩

instance : Inhabited BoxMeasure := ⟨empty⟩

/-- Reads a map of texts. -/
def mapOfJson? (j : Json) : Option (SortedMap String String) := j.texts?.map .ofList

/-- Reads a measure; what is missing is empty. -/
def ofJson? (j : Json) : Option BoxMeasure := do
  match ← j.fields? ["tag", "bounds", "margin", "border", "padding", "style", "attributes",
      "textContent", "imageSrc"] with
  | [tag, bounds, margin, border, padding, style, attributes, text, image] =>
    let edges := Json.withDefault Edges.zero Edges.ofJson?
    let map := Json.withDefault .empty mapOfJson?
    let word := Json.withDefault none (Json.nullable Json.string?)
    return {
      tag := ← Json.withDefault "" Json.string? tag
      bounds := ← Json.withDefault .zero Rect.ofJson? bounds
      margin := ← edges margin
      border := ← edges border
      padding := ← edges padding
      style := ← map style
      attributes := ← map attributes
      text := ← word text
      imageSource := ← word image }
  | _ => none

end BoxMeasure

/-- A source of measured boxes.  Only finitely many elements have others inside, so a walk that
visits each element once comes to an end. -/
structure Provider where
  documents : List DocumentRoot
  measure : Handle → Except ProviderError BoxMeasure
  /-- The elements inside an element, in source order, with the runs of text. -/
  children : Handle → List Handle
  /-- The elements that may have others inside. -/
  support : List Handle
  children_eq_nil : ∀ h, h ∉ support → children h = []

/-- An element of a provider that keeps its elements in a list. -/
structure ProvidedElement where
  measure : Except ProviderError BoxMeasure
  children : List Handle

namespace Provider

/-- The provider whose element with handle `h` is the `h`-th of a list. -/
def ofElements (documents : List DocumentRoot) (elements : Array ProvidedElement) : Provider where
  documents := documents
  measure h :=
    match elements[h]? with
    | some e => e.measure
    | none => .error (.unknownElement h)
  children h :=
    match elements[h]? with
    | some e => e.children
    | none => []
  support := List.range elements.size
  children_eq_nil h hh := by
    have : elements[h]? = none := Array.getElem?_eq_none (by simpa using hh)
    simp [this]

end Provider

end ViewCompiler
