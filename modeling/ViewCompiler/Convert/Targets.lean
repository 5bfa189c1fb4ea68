import ViewCompiler.Convert.Config
import ViewCompiler.Convert.Decisions
import ViewCompiler.Convert.Output
import ViewCompiler.Template.Assembly
import ViewCompiler.Template.Document

/-!
# Targets of a conversion

The documents and hosts that are written, the nodes in them, and their assembly.

* `Context.targets` : what is written;
* `Decided.renderedNodes` : the nodes in it, the inside of replaced ones left out;
* `Decided.assemble` : their fragments, placed level by level from the deepest;
* `Context.share` : moves shared attributes into styles;
* `Run.write` : the text of every target.
-/

namespace ViewCompiler

/-- What makes a conversion fail as a whole. -/
inductive ConversionError where
  | config (cause : ConfigError)
  /-- No document could be made into nodes. -/
  | noRoot
  | layout (cause : TreeError)
  | template (cause : TemplateError)
  deriving DecidableEq

def ConversionError.message : ConversionError → String
  | config cause => cause.message
  | noRoot => "No document had a convertible root element"
  | layout cause => "Layout error: " ++ cause.message
  | template cause => "Template error: " ++ cause.message

/-- A document or host that is written. -/
abbrev Target := DocumentEntry

/-- Appends the nodes that are not there yet. -/
def appendNew (seen ids : List NodeId) : List NodeId :=
  seen ++ (ids.filter fun id => !seen.contains id)

/-- The nodes in the output of some targets, each once. -/
def NodeTree.renderedBelow (t : NodeTree) :
    List NodeId → List Target → Except TreeError (List NodeId)
  | seen, [] => .ok seen
  | seen, target :: r => do
    let ids ← t.renderSubtree target.root
    t.renderedBelow (appendNew seen ids) r

namespace Context

/-- The documents whose root renders in no other node, then the hosts that have nodes inside. -/
def targets (c : Context) : List Target :=
  let isTop (d : DocumentEntry) : Bool := (c.tree.get? d.root).any fun n => n.renderParent.isNone
  let isUsed (e : String × NodeId) : Bool :=
    match c.tree.renderOrder e.2 with
    | .ok (_ :: _) => true
    | _ => false
  c.documents.filter isTop ++
    (c.hosts.entries.filter isUsed).map fun (name, id) => ⟨name, id⟩

/-- Gives nodes their attributes, and stores the values in them. -/
def finalize (d : Dialect) (c : Context) (id : NodeId) : Context :=
  let (attributes, values) := d.finalize c.tree id c.values
  { c with values := values }.modifyNode id fun n => { n with attributes := attributes }

/-- Moves the attributes that nodes share into styles. -/
def share (d : Dialect) (config : SharingConfig) (rendered : List NodeId) (c : Context) :
    List StyleEntry × Context :=
  let nodes := (c.tree.lookup rendered).filter fun n => !n.attributes.isEmpty
  let sharing := Sharing.ofMembers config
    (nodes.map fun n => ⟨n.id, d.elementTag c.tree n, n.attributes⟩)
  let c := sharing.removals.entries.foldl (fun c (id, names) =>
    c.modifyNode id fun n => { n with attributes := names.foldl SortedMap.erase n.attributes }) c
  let c := sharing.assignments.entries.foldl (fun c (id, style) =>
    c.modifyNode id fun n => { n with styleRef := some style }) c
  (sharing.styles, c)

/-- Reports an order that could not be carried out. -/
def reportRejected (c : Context) (e : TemplateError) : Context :=
  match e with
  | .partialReorder owner _ =>
    c.warn .rejectedReorder (c.documentName? owner) (some owner) e.message
  | e => c.warn .rejectedReorder none none e.message

/-- Reports the slots that could not be expanded. -/
def reportResolution (name : String) (r : Resolution) (c : Context) : Context :=
  let c := r.unresolved.foldl (fun c place =>
    c.warn .unresolvedPlaceholder (some name) (some place.owner)
      (place.marker ++ " left as a literal marker")) c
  r.cycles.foldl (fun c place =>
    c.warn .placeholderCycle (some name) (some place.owner)
      (place.marker ++ " refers back to an enclosing fragment")) c

end Context

namespace Decided

variable {σ : Type}

/-- The nodes in the output of some targets that are not replaced. -/
def renderedNodes (d : Decided σ) (targets : List Target) : Except TreeError (List NodeId) := do
  let ids ← d.run.context.tree.renderedBelow [] targets
  return ids.filter fun id => !d.replacements.contains id

/-- Gives a node its fragment: its text if it is replaced, and none if nothing is inside. -/
def placeNode (t : NodeTree) (replacements : SortedMap NodeId String) (a : Assembly)
    (id : NodeId) : Except TemplateError Assembly :=
  let ended : Except TemplateError Unit × Assembly → Except TemplateError Assembly
    | (.ok (), a) => .ok a
    | (.error e, _) => .error e
  match replacements.get? id with
  | some text => ended (a.replace t id text)
  | none =>
    match t.renderOrder id with
    | .error e => .error (.tree e)
    | .ok [] => .ok a
    | .ok (_ :: _) => ended (a.place t id)

/-- Places the nodes of a level, and reports the orders that could not be carried out. -/
def assembleLevel (replacements : SortedMap NodeId String) (s : Assembly × Context)
    (level : List NodeId) : Except TemplateError (Assembly × Context) := do
  let (a, c) := s
  let a ← level.foldlM (placeNode c.tree replacements) a.beginLevel
  let (rejected, a) := a.finishLevel
  return (a, rejected.foldl Context.reportRejected c)

/-- Nodes by their depth in the output, the deepest first, and by number where depths are equal. -/
def levels (nodes : List Node) : List (List NodeId) :=
  let byDepth : SortedMap Nat (List NodeId) := nodes.foldl (fun m n =>
    m.insert n.renderDepth (m.getD n.renderDepth [] ++ [n.id])) .empty
  (byDepth.values.map (stableSort fun a b => decide (a ≤ b))).reverse

/-- Assembles the fragments of all nodes in the output of some targets. -/
def assemble (d : Decided σ) (targets : List Target) :
    Except ConversionError (Assembly × Decided σ) :=
  let c := d.run.context
  match c.tree.renderedBelow [] targets with
  | .error e => .error (.layout e)
  | .ok ids =>
    let a := d.orders.foldl (fun a e => a.saveOrder e.1 e.2) Assembly.empty
    match (levels (c.tree.lookup ids)).foldlM (assembleLevel d.replacements) (a, c) with
    | .error e => .error (.template e)
    | .ok (a, c) => .ok (a, d.modify fun _ => c)

end Decided

/-- The documents of a conversion before they are written. -/
structure Assembled where
  /-- What is written. -/
  targets : List Target
  assembly : Assembly
  /-- The styles that attributes have been moved into. -/
  styles : List StyleEntry

/-- The expanded documents, in the order of the targets. -/
def Assembled.resolutions (a : Assembled) (t : NodeTree) : List Resolution :=
  (a.assembly.resolveAll t (a.targets.map DocumentEntry.root)).1

namespace Run

variable {σ : Type}

/-- Writes a target, unless an extension has another text for it. -/
def writeTarget (h : Host σ) (slug : String → String) (d : Dialect)
    (s : List DocumentOutput × Run σ) (e : Target × Resolution) : List DocumentOutput × Run σ :=
  let (written, r) := s
  let (target, resolution) := e
  let r := r.modify (Context.reportResolution target.name resolution)
  let content := d.document r.context.tree resolution.pieces
  let (action, r) := r.dispatch h .afterFinalize (some target.root)
  let (content, r) :=
    match action with
    | .replace text => (text, r)
    | action => (content, r.ignore .afterFinalize (some target.name) (some target.root) action)
  let stem := DocumentOutput.stem slug target.name target.root
  (written ++ [⟨target.name, stem, target.root, content⟩], r)

/-- Writes all targets. -/
def write (h : Host σ) (slug : String → String) (d : Dialect) (a : Assembled) (r : Run σ) :
    List DocumentOutput × Run σ :=
  (a.targets.zip (a.resolutions r.context.tree)).foldl (writeTarget h slug d) ([], r)

end Run

end ViewCompiler
