/-!
# Identities

Nodes are numbered in the order in which they are made, elements by the provider that measures
them.
-/

namespace ViewCompiler

/-- The number of a node, in order of creation. -/
abbrev NodeId := Nat

/-- The number by which a provider knows an element. -/
abbrev Handle := Nat

/-- The text of a handle. -/
def Handle.text (h : Handle) : String := "el#" ++ toString h

end ViewCompiler
