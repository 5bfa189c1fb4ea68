import ViewCompiler.Convert.Extension
import ViewCompiler.Layout.Classify

/-!
# Decisions of a conversion

`Decided.documents` classifies the runs of all documents and keeps what the assembly has to know of
it: the texts that stand for replaced nodes, and the orders of containers whose members come out in
another order than in the source.
-/

namespace ViewCompiler

/-- A conversion with the decisions made so far. -/
structure Decided (σ : Type) where
  run : Run σ
  replacements : SortedMap NodeId String
  /-- The orders of reordered containers, by owner. -/
  orders : List (NodeId × List NodeId)

namespace Decided

variable {σ : Type}

def new (r : Run σ) : Decided σ := ⟨r, .empty, []⟩

def modify (d : Decided σ) (f : Context → Context) : Decided σ :=
  { d with run := d.run.modify f }

/-- Takes a decision over, and shows it to the extensions. -/
def record (h : Host σ) (name : String) (d : Decided σ) (decision : LayoutDecision) : Decided σ :=
  let owner := decision.owner
  let d :=
    if decision.isDegenerate then d.modify fun c =>
      c.warn .degenerate (some name) (some owner)
        (toString decision.members.length ++ " member(s) fell back to a frame")
    else d
  { d with
    orders := d.orders ++ (decision.reorder.map fun order => (owner, order)).toList
    run := d.run.notify h .afterClassify (some name) (some owner) }

/-- Classifies the run of a node and takes all decisions over. -/
def classify (h : Host σ) (layout : LayoutConfig) (name : String) (parent : NodeId)
    (d : Decided σ) : Except TreeError Unit × Decided σ :=
  match Classify.run layout d.run.context.tree parent with
  | .error e => (.error e, d)
  | .ok (outcome, t) =>
    let d := d.modify fun c => outcome.skipped.foldl (fun c (id, e) =>
      c.warn .skippedMember (some name) (some id) e.message) { c with tree := t }
    (.ok (), outcome.decisions.foldl (record h name) d)

/-- Asks the extensions about a node, and classifies its run unless the node is replaced. -/
def decideNode (h : Host σ) (layout : LayoutConfig) (name : String) (parent : NodeId)
    (d : Decided σ) : Except TreeError Unit × Decided σ :=
  let (action, run) := d.run.dispatch h .beforeClassify (some parent)
  let d := { d with run := run }
  match action with
  | .proceed => d.classify h layout name parent
  | .replace text =>
    (.ok (), {
      (d.modify fun c => c.modifyNode parent fun n =>
        { n with flags := n.flags.insert .replaced }) with
      replacements := d.replacements.insert parent text })
  | .redirect target =>
    let d := d.modify fun c =>
      match c.tree.relocate parent target with
      | .ok t => { c with tree := t }
      | .error e => c.warn .skippedMember (some name) (some parent) e.message
    d.classify h layout name parent

/-- Decides on nodes one after another, up to an error. -/
def decideAll (h : Host σ) (layout : LayoutConfig) (name : String) :
    List NodeId → Decided σ → Except TreeError Unit × Decided σ
  | [], d => (.ok (), d)
  | parent :: r, d =>
    match d.decideNode h layout name parent with
    | (.ok (), d) => decideAll h layout name r d
    | (.error e, d) => (.error e, d)

/-- Decides on all nodes of a document that have a run, the deepest first. -/
def decideDocument (h : Host σ) (layout : LayoutConfig) (document : DocumentEntry)
    (d : Decided σ) : Except TreeError Unit × Decided σ :=
  match d.run.context.tree.classificationOrder document.root with
  | .error e => (.error e, d)
  | .ok parents => decideAll h layout document.name parents d

/-- Decides on a document, unless the conversion is to stop.  A document on which that fails has no
output. -/
def document (h : Host σ) (layout : LayoutConfig) (d : Decided σ) (document : DocumentEntry) :
    Decided σ :=
  match d.run.poll h with
  | (true, run) =>
    { d with run := run }.modify fun c =>
      (c.report ⟨.info, .cancelled, some document.name, none,
        "skipped before classification"⟩).removeDocument document.root
  | (false, run) =>
    match { d with run := run }.decideDocument h layout document with
    | (.ok (), d) => d
    | (.error e, d) =>
      d.modify fun c =>
        (c.fail .documentDiscarded document.name (some document.root)
          ("Layout error: " ++ e.message)).removeDocument document.root

/-- Decides on all documents. -/
def documents (h : Host σ) (layout : LayoutConfig) (r : Run σ) : Decided σ :=
  r.context.documents.foldl (document h layout) (new r)

end Decided

end ViewCompiler
