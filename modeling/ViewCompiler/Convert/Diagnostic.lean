import ViewCompiler.Identity

/-!
# Diagnostics

What a conversion reports besides its output.  A conversion goes on after every diagnostic; one
with the severity `error` says that a document has no output.
-/

namespace ViewCompiler

inductive Severity where
  | info
  | warning
  /-- The document has no output. -/
  | error
  deriving DecidableEq, Repr

def Severity.name : Severity → String
  | info => "Info"
  | warning => "Warning"
  | error => "Error"

inductive DiagnosticKind where
  /-- An element could not be measured and is hidden. -/
  | unmeasured
  /-- A style value could not be read. -/
  | styleParse
  | imageLoad
  /-- Members that passed no test are in a frame. -/
  | degenerate
  /-- A node could not be given its place. -/
  | skippedMember
  | rejectedReorder
  | unresolvedPlaceholder
  | placeholderCycle
  /-- An extension answered with an action that its hook does not know. -/
  | ignoredHookAction
  | noRoot
  /-- A document could not be classified. -/
  | documentDiscarded
  | cancelled
  deriving DecidableEq, Repr

def DiagnosticKind.name : DiagnosticKind → String
  | unmeasured => "Unmeasured"
  | styleParse => "StyleParse"
  | imageLoad => "ImageLoad"
  | degenerate => "Degenerate"
  | skippedMember => "SkippedMember"
  | rejectedReorder => "RejectedReorder"
  | unresolvedPlaceholder => "UnresolvedPlaceholder"
  | placeholderCycle => "PlaceholderCycle"
  | ignoredHookAction => "IgnoredHookAction"
  | noRoot => "NoRoot"
  | documentDiscarded => "DocumentDiscarded"
  | cancelled => "Cancelled"

structure Diagnostic where
  severity : Severity
  kind : DiagnosticKind
  document : Option String
  node : Option NodeId
  message : String
  deriving DecidableEq

namespace Diagnostic

/-- The line that shows a diagnostic. -/
def text (d : Diagnostic) : String :=
  "[" ++ d.severity.name ++ "] " ++ d.kind.name ++
    ((d.document.map fun name => " in '" ++ name ++ "'").getD "") ++
    ((d.node.map fun id => " at node " ++ toString id).getD "") ++ ": " ++ d.message

def isError (d : Diagnostic) : Bool := d.severity == .error

/-- How many diagnostics of a kind there are. -/
def count (kind : DiagnosticKind) (l : List Diagnostic) : Nat :=
  (l.filter fun d => d.kind == kind).length

end Diagnostic

end ViewCompiler
