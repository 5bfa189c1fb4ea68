import ViewCompiler.Convert.Script
import ViewCompiler.Json

/-!
# Reading of scripts

A script as a structured value: an object with a name and rules.  An effect is an array that starts
with the word for it, and the answer of a rule is an object with one field.  What is missing is
empty, and a missing target is the node of the hook.
-/

namespace ViewCompiler

namespace Script

/-- The text of a value, empty if it has none. -/
def textOf (j : Option Json) : String := (j.bind Json.string?).getD ""

/-- The number of a node, unless it is missing. -/
def nodeOf? (j : Option Json) : Option NodeId := j.bind (Json.natBelow? (twoPow 32))

/-- The items of an array, none if it is missing. -/
def itemsOf (j : Option Json) : List Json := (j.bind Json.items?).getD []

/-- Reads an effect. -/
def effect? (j : Json) : Option Effect :=
  let item (i : Nat) : Option Json := (itemsOf (some j))[i]?
  let target := nodeOf? (item 1)
  let name := textOf (item 2)
  let value := textOf (item 3)
  match textOf (item 0) with
  | "cancel" => some .cancel
  | "host" => some (.host (textOf (item 1)))
  | "hosts" => some .hosts
  | "documents" => some .documents
  | "document" => some (.document (textOf (item 1)))
  | "string" => some (.string (textOf (item 1)))
  | "style" => some (.style target name value)
  | "attr" => some (.attribute target name value)
  | "source" => some (.source target name value)
  | "exclude" => some (.exclude target)
  | "layout_children" =>
    some (.layoutChildren target ((itemsOf (item 2)).filterMap fun j => nodeOf? (some j)))
  | "render_parent" => some (.renderParent target ((nodeOf? (item 2)).getD 0))
  | "diagnostic" => some (.diagnostic (textOf (item 1)))
  | _ => none

/-- Reads the answer of a rule. -/
def action (j : Json) : RuleAction :=
  match j.member? "replace", j.member? "redirect", j.member? "host" with
  | some text, _, _ => .replace (textOf (some text))
  | none, some target, _ => .redirect ((nodeOf? (some target)).getD 0)
  | none, none, some name => .host (textOf (some name))
  | none, none, none => .proceed

/-- Reads a rule; one for an unknown hook is none. -/
def rule? (j : Json) : Option Rule := do
  let point ← HookPoint.all.find? fun p => p.name == textOf (j.member? "point")
  let word (k : String) : Option String := (j.member? k).bind Json.string?
  return {
    point := point
    tag := word "tag"
    id := word "id"
    node := nodeOf? (j.member? "node")
    limit := (j.member? "limit").bind (Json.natBelow? (twoPow 64))
    effects := (itemsOf (j.member? "effects")).filterMap effect?
    action := ((j.member? "action").map action).getD .proceed }

/-- Reads a script. -/
def ofJson (j : Json) : Script :=
  ⟨textOf (j.member? "name"), (itemsOf (j.member? "rules")).filterMap rule?⟩

end Script

end ViewCompiler
