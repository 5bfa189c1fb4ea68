import ViewCompiler.Layout.Walk
import ViewCompiler.Provider

/-!
# From boxes to nodes

`Ingest.document` makes the nodes of a document out of what a provider measured.  Each element is
met once.  Elements that cannot be measured or are not displayed become excluded nodes, so that
they can still be reported.  Afterwards an element with one run of text takes the text over, a
selection takes its options over, and labels are tied to what they label.
-/

namespace ViewCompiler

/-- What is known after a document has been made into nodes. -/
structure IngestReport where
  /-- The root, unless the document is not displayed. -/
  root : Option NodeId
  nodeCount : Nat
  /-- The elements that could not be measured. -/
  unmeasured : List (Handle × ProviderError)
  /-- The style errors of properties that had none before. -/
  styleErrors : List StyleError

/-- A document whose root cannot be measured. -/
structure IngestError where
  element : Handle
  cause : ProviderError
  deriving DecidableEq

def IngestError.message (e : IngestError) : String :=
  "Document root " ++ Handle.text e.element ++ " could not be measured: " ++ e.cause.message

namespace Ingest

/-- Where the walk through a document stands. -/
structure State where
  tree : NodeTree
  visited : List Handle
  unmeasured : List (Handle × ProviderError)
  styleErrors : List StyleError
  /-- The properties of which an error has been reported, also in earlier documents. -/
  warned : List String

/-- The tag of a run of text. -/
def textTag : String := "#text"

/-- What an error is reported once for. -/
def subject : StyleError → String
  | .invalidValue property _ => property
  | e@(.shorthandCount ..) => e.message

/-- Reports the errors of properties that had none before. -/
def report (s : State) (errors : List StyleError) : State :=
  errors.foldl (fun s e =>
    if s.warned.contains (subject e) then s
    else { s with warned := subject e :: s.warned, styleErrors := s.styleErrors ++ [e] }) s

/-- The text of an element, if there is any besides blanks. -/
def textOf (m : BoxMeasure) : Option String :=
  (m.text.map Text.collapse).filter fun t => !t.isEmpty

/-- The image of an element: as measured, or the source of an image element. -/
def imageOf (m : BoxMeasure) : Option String :=
  m.imageSource <|>
    if Text.asciiLower m.tag == "img" then m.attributes.get? "src" else none

/-- Puts what was measured of an element into its node. -/
def fill (s : State) (id : NodeId) (element : Handle) (m : BoxMeasure) : State :=
  let (style, errors) := (Style.ofMap m.style).sanitize
  let s := report s errors
  let hidden := style.visibility != .visible
  { s with tree := s.tree.modify id fun n => { n with
      element := some element
      bounds := m.bounds
      margin := m.margin
      border := m.border
      padding := m.padding
      style := style
      sourceAttributes := m.attributes
      text := textOf m
      imageSource := imageOf m
      visible := if hidden then false else n.visible
      flags := if hidden then n.flags.insert .hidden else n.flags } }

/-- An element to be met, with the node of its parent and the node whose run it joins. -/
structure Task where
  parent : NodeId
  layoutParent : NodeId
  element : Handle

/-- The elements inside an element, to be met. -/
def tasks (p : Provider) (parent layoutParent : NodeId) (element : Handle) : List Task :=
  (p.children element).map fun child => ⟨parent, layoutParent, child⟩

/-- Makes an excluded node of an element that cannot be measured. -/
def meetUnmeasured (s : State) (task : Task) (e : ProviderError) : State :=
  let (id, t) := s.tree.alloc .element ""
  let t := (t.attach task.parent id none).2
  { s with
    tree := t.modify id fun n => { n with element := some task.element, excluded := true }
    unmeasured := s.unmeasured ++ [(task.element, e)] }

/-- Makes a node of a run of text, unless it is blank. -/
def meetText (s : State) (task : Task) (m : BoxMeasure) : State :=
  let text := Text.collapse (m.text.getD "")
  if text.isEmpty then s
  else
    let (id, t) := s.tree.alloc .text textTag
    let t := (t.attach task.parent id (some task.layoutParent)).2
    { s with tree := t.modify id fun n => { n with
        element := some task.element
        bounds := m.bounds
        text := some text
        style := Style.ofMap m.style } }

/-- Makes a node of an element, and gives the elements inside it.  One that makes no box is
excluded; the elements inside it join the run that it is in, and none are looked for inside one that
is not displayed. -/
def meetElement (p : Provider) (s : State) (task : Task) (m : BoxMeasure) : State × List Task :=
  let (id, t) := s.tree.alloc .element (Text.asciiLower m.tag)
  let display := (Style.ofMap m.style).display
  let joins := display != .contents && display != .none
  let t := (t.attach task.parent id (if joins then some task.layoutParent else none)).2
  let s := fill { s with tree := t } id task.element m
  let exclude (s : State) : State :=
    { s with tree := s.tree.modify id fun n => { n with excluded := true } }
  match display with
  | .none => (exclude s, [])
  | .contents => (exclude s, tasks p id task.layoutParent task.element)
  | _ => (s, tasks p id id task.element)

/-- Meets an element for the first time. -/
def meet (p : Provider) (s : State) (task : Task) : State × List Task :=
  match p.measure task.element with
  | .error e => (meetUnmeasured s task e, [])
  | .ok m =>
    if m.tag == textTag || (m.tag.isEmpty && m.text.isSome) then (meetText s task m, [])
    else meetElement p s task m

/-- Meets the elements that are to be met, and those inside them before the others. -/
def walk (p : Provider) : Nat → State → List Task → State
  | _, s, [] => s
  | 0, s, _ => s
  | fuel + 1, s, task :: rest =>
    if s.visited.contains task.element then walk p fuel s rest
    else
      let (s, inner) := meet p { s with visited := task.element :: s.visited } task
      walk p fuel s (inner ++ rest)

/-- A bound on the elements met below a root: each element's children are met once. -/
def bound (p : Provider) (root : Handle) : Nat :=
  p.support.foldl (fun n h => n + (p.children h).length) (p.children root).length

/-! ### After the walk -/

/-- Applies a change at each node below a root in turn. -/
def atEach (change : NodeTree → Node → NodeTree) (t : NodeTree) (root : NodeId) : NodeTree :=
  match t.layoutSubtree root with
  | .error _ => t
  | .ok ids =>
    ids.foldl (fun t id =>
      match t.get? id with
      | some n => change t n
      | none => t) t

/-- Lets an element whose run is one text take the text over. -/
def collapseText (t : NodeTree) (n : Node) : NodeTree :=
  match n.layoutChildren with
  | [only] =>
    match t.get? only with
    | some c =>
      if c.kind == .text && n.kind != .text then
        (t.modify n.id fun n => { n with text := c.text, layoutChildren := [] }).modify only
          fun c => { c with excluded := true }
      else t
    | none => t
  | _ => t

/-- Lets a selection take its options over. -/
def gatherOptions (t : NodeTree) (n : Node) : NodeTree :=
  if n.tag == "select" then
    let options := (t.lookup n.children).filter fun c => c.tag == "option" || c.tag == "optgroup"
    let t := options.foldl (fun t c => t.modify c.id fun c => { c with excluded := true }) t
    t.modify n.id fun n => { n with
      entries := options.filterMap Node.text
      layoutChildren := [] }
  else t

/-- Ties a label to the node that it is for. -/
def bindCompanion (root : NodeId) (t : NodeTree) (n : Node) : NodeTree :=
  if n.tag == "label" then
    match (n.source? "for").bind (t.findBySourceId root) with
    | some target => t.modify n.id fun n => { n with companion := some target }
    | none => t
  else t

/-- Makes the nodes of the document with a given root element.  `warned` are the properties of
which an error has been reported before; it is answered with those of this document added. -/
def document (p : Provider) (t : NodeTree) (warned : List String) (element : Handle) :
    Except IngestError (IngestReport × NodeTree × List String) :=
  match p.measure element with
  | .error e => .error ⟨element, e⟩
  | .ok m =>
    let display := (Style.ofMap m.style).display
    if display == .none || display == .contents then .ok (⟨none, 0, [], []⟩, t, warned)
    else
      let (root, tree) := t.alloc .root m.tag
      let s := fill ⟨tree, [element], [], [], warned⟩ root element m
      let s := walk p (bound p element) s (tasks p root root element)
      let tree := atEach collapseText s.tree root
      let tree := atEach gatherOptions tree root
      let tree := atEach (bindCompanion root) tree root
      .ok (⟨some root, tree.size - t.size, s.unmeasured, s.styleErrors⟩, tree, s.warned)

end Ingest

end ViewCompiler
