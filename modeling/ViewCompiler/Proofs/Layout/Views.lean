import ViewCompiler.Layout.NodeTree

/-!
# Parts of nodes

Most of what is said about a tree is about some fields of its nodes only. `NodeTree.view?` reads
such a part of the node with a number, and a change of a node changes the part as the part says
(`NodeTree.view?_modify_of`), if at all.

The last steps of a conversion give nodes their attributes and styles and change nothing else.
`NodeTree.bare` is a tree without these: two trees with the same bare tree are at most different
stages of such steps, and what does not look at attributes and styles can be told from the bare tree
alone.
-/

namespace ViewCompiler

namespace NodeTree

variable {α : Type} {view : Node → α}

/-- A part of the node with a number. -/
def view? (view : Node → α) (t : NodeTree) (i : NodeId) : Option α := (t.get? i).map view

theorem view?_of_get? {t : NodeTree} {i : NodeId} {n : Node} (h : t.get? i = some n) :
    t.view? view i = some (view n) := by
  rw [view?, h, Option.map_some]

/-- A change of a node, which leaves its number as it is, changes the part of that node only. -/
theorem view?_modify_of (t : NodeTree) (id : NodeId) {f : Node → Node} (g : α → α)
    (hf : ∀ n, view { f n with id := n.id } = g (view n)) (i : NodeId) :
    (t.modify id f).view? view i = if i = id then (t.view? view i).map g else t.view? view i := by
  rw [view?, view?, get?_modify]
  by_cases h : i = id
  · rw [if_pos h, if_pos h.symm, Option.map_map, Option.map_map]
    exact congrArg (Option.map · (t.get? i)) (funext hf)
  · rw [if_neg h, if_neg fun heq ↦ h heq.symm]

/-- Most changes leave the part as it is. -/
theorem view?_modify (t : NodeTree) (id : NodeId) {f : Node → Node}
    (hf : ∀ n, view { f n with id := n.id } = view n) (i : NodeId) :
    (t.modify id f).view? view i = t.view? view i := by
  rw [view?_modify_of t id (fun a ↦ a) hf, Option.map_id']
  exact ite_self _

end NodeTree

/-! ### Without attributes and styles -/

/-- A node without attributes and style. -/
def Node.bare (n : Node) : Node := { n with attributes := .empty, styleRef := none }

namespace NodeTree

/-- A tree with bare nodes. -/
def bare (t : NodeTree) : NodeTree where
  nodes := t.nodes.map Node.bare
  roots := t.roots
  numbered i n h := by
    rw [Array.getElem?_map] at h
    obtain ⟨m, hm, rfl⟩ := Option.map_eq_some_iff.1 h
    exact t.numbered i m hm

variable (t : NodeTree)

@[simp]
theorem get?_bare (i : NodeId) : t.bare.get? i = (t.get? i).map Node.bare :=
  Array.getElem?_map

/-- What a link leads to. -/
theorem bind_get?_bare (link : Option NodeId) :
    link.bind t.bare.get? = (link.bind t.get?).map Node.bare := by
  cases link with
  | none => rfl
  | some i => exact t.get?_bare i

@[simp]
theorem toList_bare : t.bare.toList = t.toList.map Node.bare :=
  Array.toList_map

theorem position_bare (i : NodeId) : t.bare.position i = t.position i := by
  rw [position, position, get?_bare]
  cases t.get? i <;> rfl

@[simp]
theorem renderOrder_bare (i : NodeId) : t.bare.renderOrder i = t.renderOrder i := by
  have hposition : t.bare.position = t.position := funext t.position_bare
  rw [renderOrder, renderOrder, get?_bare, hposition]
  cases t.get? i <;> rfl

variable {t}

theorem ext_get? {t' : NodeTree} (hget : ∀ i, t.get? i = t'.get? i) (hroots : t.roots = t'.roots) :
    t = t' := by
  obtain ⟨nodes, roots, _⟩ := t
  obtain ⟨nodes', roots', _⟩ := t'
  obtain rfl : nodes = nodes' := Array.ext_getElem? hget
  obtain rfl : roots = roots' := hroots
  rfl

/-- **A step that leaves a node bare** as it was leaves the tree so. -/
theorem bare_modify {f : Node → Node} (hf : ∀ n, (f n).bare = n.bare) (id : NodeId) :
    (t.modify id f).bare = t.bare := by
  refine ext_get? (fun i ↦ ?_) rfl
  rw [get?_bare, get?_bare, get?_modify]
  split
  · rw [Option.map_map]
    refine congrArg (Option.map · (t.get? i)) (funext fun n ↦ ?_)
    show { (f n).bare with id := n.id } = n.bare
    rw [hf]
    rfl
  · rfl

/-- Nodes that are the same but for attributes and style. -/
theorem exists_get?_of_bare {t' : NodeTree} (h : t.bare = t'.bare) {i : NodeId} {n : Node}
    (hn : t.get? i = some n) : ∃ n', t'.get? i = some n' ∧ n'.bare = n.bare := by
  have hget := t'.get?_bare i
  rw [← h, get?_bare, hn] at hget
  exact Option.map_eq_some_iff.1 hget.symm

/-- **What is neither attributes nor style** is the same in them. -/
theorem map_get?_of_bare {t' : NodeTree} (h : t.bare = t'.bare) {α : Type} {g : Node → α}
    (hg : ∀ n, g n.bare = g n) (i : NodeId) : (t'.get? i).map g = (t.get? i).map g := by
  have hbare : ∀ t : NodeTree, (t.bare.get? i).map g = (t.get? i).map g := fun t ↦ by
    rw [get?_bare, Option.map_map]
    exact congrArg (Option.map · (t.get? i)) (funext hg)
  rw [← hbare t', ← h, hbare]

end NodeTree

end ViewCompiler
