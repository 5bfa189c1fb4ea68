import ViewCompiler.Convert.Context
import ViewCompiler.Text.Quoted

/-!
# Extensions

Code that takes part in a conversion.  At each hook the extensions are asked one after another
until one of them answers with an action; `Run.notify` is for the hooks at which no action has an
effect.  Extensions have a state of their own, the state of the host, which also says whether the
conversion is to stop.
-/

namespace ViewCompiler

/-- The places at which extensions are asked. -/
inductive HookPoint where
  /-- Before a document is measured; there is no node yet. -/
  | beforeIngest
  /-- With the root of a document. -/
  | afterIngest
  /-- With a node whose run is about to be classified.  It can be replaced by a text, or moved
  under another node first. -/
  | beforeClassify
  /-- With the owner of a decision. -/
  | afterClassify
  /-- Once, when all attributes are known; there is no node. -/
  | beforeResourcePass
  /-- With the root of an output document, which can be replaced by a text. -/
  | afterFinalize
  deriving DecidableEq, Repr

namespace HookPoint

def all : List HookPoint :=
  [beforeIngest, afterIngest, beforeClassify, afterClassify, beforeResourcePass, afterFinalize]

def name : HookPoint → String
  | beforeIngest => "before-ingest"
  | afterIngest => "after-ingest"
  | beforeClassify => "before-classify"
  | afterClassify => "after-classify"
  | beforeResourcePass => "before-resource-pass"
  | afterFinalize => "after-finalize"

end HookPoint

/-- The answer of an extension. -/
inductive HookAction where
  | proceed
  /-- A text instead of the output; slot markers in it take part in the assembly. -/
  | replace (text : String)
  /-- Another node for the node to render in. -/
  | redirect (target : NodeId)
  deriving DecidableEq

/-- The form of an action in a message. -/
def HookAction.text : HookAction → String
  | proceed => "Continue"
  | replace text => "Replace(" ++ Text.quote text ++ ")"
  | redirect target => "Redirect(NodeId(" ++ toString target ++ "))"

/-- An extension of a host with state `σ`. -/
structure Extension (σ : Type) where
  name : String
  onHook : HookPoint → Option NodeId → Context → σ → HookAction × Context × σ

/-- What a conversion runs in. -/
structure Host (σ : Type) where
  /-- Whether the conversion is to stop, asked before each document. -/
  cancelled : σ → Bool × σ
  extensions : List (Extension σ)

/-- No extensions, and no wish to stop. -/
def Host.quiet : Host Unit := ⟨fun s => (false, s), []⟩

/-- Where a conversion stands. -/
structure Run (σ : Type) where
  context : Context
  host : σ

namespace Run

variable {σ : Type}

def modify (r : Run σ) (f : Context → Context) : Run σ := { r with context := f r.context }

/-- Whether the conversion is to stop. -/
def poll (h : Host σ) (r : Run σ) : Bool × Run σ :=
  let (stop, s) := h.cancelled r.host
  (stop, { r with host := s })

/-- Asks extensions until one answers with an action. -/
def ask (point : HookPoint) (node : Option NodeId) :
    List (Extension σ) → Run σ → HookAction × Run σ
  | [], r => (.proceed, r)
  | e :: es, r =>
    let (action, context, host) := e.onHook point node r.context r.host
    if action = .proceed then ask point node es ⟨context, host⟩ else (action, ⟨context, host⟩)

/-- Asks all extensions of a host. -/
def dispatch (h : Host σ) (point : HookPoint) (node : Option NodeId) (r : Run σ) :
    HookAction × Run σ :=
  ask point node h.extensions r

/-- Reports an action that has no effect at a hook. -/
def ignore (point : HookPoint) (document : Option String) (node : Option NodeId)
    (action : HookAction) (r : Run σ) : Run σ :=
  if action = .proceed then r
  else r.modify fun c =>
    c.warn .ignoredHookAction document node (action.text ++ " has no effect at " ++ point.name)

/-- Asks all extensions at a hook at which no action has an effect. -/
def notify (h : Host σ) (point : HookPoint) (document : Option String) (node : Option NodeId)
    (r : Run σ) : Run σ :=
  let (action, r) := r.dispatch h point node
  r.ignore point document node action

end Run

end ViewCompiler
