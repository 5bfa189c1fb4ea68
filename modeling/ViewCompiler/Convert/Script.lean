import ViewCompiler.Convert.Extension

/-!
# Scripted extensions

Extensions that are lists of rules.  At a hook the first rule that fits is used: its effects are
carried out in order, and it gives the answer.  All that happens is kept in a trace.

* `Effect.apply` : what an effect does to the conversion, and its result;
* `Rule.fits` : whether a rule is for a hook;
* `Script.host` : the host of some scripts.
-/

namespace ViewCompiler

/-- A change to the conversion, or a question about it.  Without a target it is about the node of
the hook. -/
inductive Effect where
  | cancel
  | host (name : String)
  | hosts
  | documents
  | document (name : String)
  | string (text : String)
  | style (target : Option NodeId) (property value : String)
  | attribute (target : Option NodeId) (name value : String)
  | source (target : Option NodeId) (name value : String)
  | exclude (target : Option NodeId)
  | layoutChildren (target : Option NodeId) (ids : List NodeId)
  | renderParent (target : Option NodeId) (parent : NodeId)
  | diagnostic (message : String)

inductive EffectResult where
  | done
  | node (id : Option NodeId)
  | nodes (l : List (String × NodeId))
  | name (text : String)
  | failed (cause : TreeError)

/-- The answer of a rule. -/
inductive RuleAction where
  | proceed
  | replace (text : String)
  | redirect (target : NodeId)
  /-- Moves the node to a host. -/
  | host (name : String)

/-- What is to happen at a hook. -/
structure Rule where
  point : HookPoint
  /-- The tag of the node. -/
  tag : Option String
  /-- The `id` of the node in the source. -/
  id : Option String
  node : Option NodeId
  /-- How often the rule is used at most. -/
  limit : Option Nat
  effects : List Effect
  action : RuleAction

/-- What a script did when it was asked. -/
structure TraceEntry where
  script : String
  point : HookPoint
  node : Option NodeId
  action : HookAction
  results : List EffectResult

/-- A list of rules under a name. -/
structure Script where
  name : String
  rules : List Rule

/-- What scripts remember. -/
structure ScriptState where
  cancelled : Bool
  /-- The uses of rules, each by the place of the script and the place of the rule in it. -/
  uses : List (Nat × Nat)
  trace : List TraceEntry

/-- Carries an effect out at a hook with some node. -/
def Effect.apply (hookNode : Option NodeId) (c : Context) (s : ScriptState) :
    Effect → EffectResult × Context × ScriptState
  | .cancel => (.done, c, { s with cancelled := true })
  | .host name =>
    let (id, c) := c.externalHost name
    (.node (some id), c, s)
  | .hosts => (.nodes c.hosts.entries, c, s)
  | .documents => (.nodes (c.documents.map fun d => (d.name, d.root)), c, s)
  | .document name => (.node (c.documentNamed? name), c, s)
  | .string text =>
    let (name, values) := c.values.string text
    (.name name, { c with values := values }, s)
  | .style target property value => change target fun n =>
      { n with style := n.style.set property value }
  | .attribute target name value => change target fun n =>
      { n with attributes := n.attributes.insert name value }
  | .source target name value => change target fun n =>
      { n with sourceAttributes := n.sourceAttributes.insert name value }
  | .exclude target => change target fun n => { n with excluded := true }
  | .layoutChildren target ids => change target fun n =>
      { n with layoutChildren := n.layoutChildren ++ ids }
  | .renderParent target parent =>
    match c.tree.setRenderParent (subject target) parent with
    | .ok t => (.done, { c with tree := t }, s)
    | .error e => (.failed e, c, s)
  | .diagnostic message => (.done, c.report ⟨.info, .unmeasured, none, hookNode, message⟩, s)
where
  subject (target : Option NodeId) : NodeId := (target <|> hookNode).getD 0
  change (target : Option NodeId) (f : Node → Node) : EffectResult × Context × ScriptState :=
    (.done, c.modifyNode (subject target) f, s)

/-- Whether a rule is for a hook. -/
def Rule.fits (r : Rule) (point : HookPoint) (node : Option NodeId) (t : NodeTree) : Bool :=
  let n := node.bind t.get?
  r.point == point &&
    r.tag.all (fun tag => n.any fun n => n.tag == tag) &&
    r.id.all (fun id => n.any fun n => n.source? "id" == some id) &&
    r.node.all fun id => node == some id

namespace Script

/-- Carries effects out in order. -/
def applyAll (node : Option NodeId) : List Effect → Context → ScriptState →
    List EffectResult × Context × ScriptState
  | [], c, s => ([], c, s)
  | e :: es, c, s =>
    let (result, c, s) := e.apply node c s
    let (results, c, s) := applyAll node es c s
    (result :: results, c, s)

/-- The answer of a rule; a host is made if need be. -/
def answer (c : Context) : RuleAction → HookAction × Context
  | .proceed => (.proceed, c)
  | .replace text => (.replace text, c)
  | .redirect target => (.redirect target, c)
  | .host name =>
    let (id, c) := c.externalHost name
    (.redirect id, c)

/-- The place of the first rule that fits and may still be used, with the rule. -/
def select (place : Nat) (script : Script) (point : HookPoint) (node : Option NodeId) (c : Context)
    (s : ScriptState) : Option (Rule × Nat) :=
  script.rules.zipIdx.find? fun (r, i) =>
    r.limit.all (fun limit => decide ((s.uses.filter (· = (place, i))).length < limit)) &&
      r.fits point node c.tree

/-- The extension of the script at some place. -/
def extension (script : Script) (place : Nat) : Extension ScriptState where
  name := script.name
  onHook point node c s :=
    let (results, action, c, s) :=
      match select place script point node c s with
      | none => ([], HookAction.proceed, c, s)
      | some (r, i) =>
        let (results, c, s) := applyAll node r.effects c { s with uses := (place, i) :: s.uses }
        let (action, c) := answer c r.action
        (results, action, c, s)
    (action, c, { s with trace := s.trace ++ [⟨script.name, point, node, action, results⟩] })

/-- The host of some scripts. -/
def host (scripts : List Script) : Host ScriptState where
  cancelled s := (s.cancelled, s)
  extensions := scripts.zipIdx.map fun (script, place) => script.extension place

end Script

end ViewCompiler
