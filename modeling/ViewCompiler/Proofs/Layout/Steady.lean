import ViewCompiler.Proofs.Layout.Sown

/-!
# Parts of nodes that do not depend on the structure

What a node has from its element is put into it once. Attaching nodes to each other does not change
it, and neither do the changes after the walk, which empty runs, exclude nodes and tie labels to
what they label. `Steady` says so of a part of a node, and the part of every node is then the same
before and after all these changes (`Steady.grafted`, `Steady.finished`).
-/

namespace ViewCompiler

open NodeTree Sown

variable {α : Type} {view : Node → α}

/-- **A part of a node that does not depend on the structure.** -/
structure Steady (view : Node → α) : Prop where
  number : ∀ id n, view { n with id := id } = view n
  addChild : ∀ child n, view (addChild child n) = view n
  addMember : ∀ child n, view (addMember child n) = view n
  under : ∀ parent run index depth n, view (under parent run index depth n) = view n
  excluded : ∀ n, view { n with excluded := true } = view n
  collapsed : ∀ text n, view { n with text := text, layoutChildren := [] } = view n
  gathered : ∀ entries n, view { n with entries := entries, layoutChildren := [] } = view n
  bound : ∀ companion n, view { n with companion := companion } = view n

namespace NodeTree

theorem view?_alloc (view : Node → α) (t : NodeTree) (kind : NodeKind) (tag : String) (i : NodeId) :
    (t.alloc kind tag).2.view? view i =
      if i = t.size then some (view (.new t.size kind tag)) else t.view? view i := by
  rw [view?, view?, get?_alloc]
  split <;> rfl

theorem size_grafted (t : NodeTree) (kind : NodeKind) (tag : String) (parent : NodeId)
    (layoutParent : Option NodeId) :
    (grafted t kind tag parent layoutParent).size = t.size + 1 := by
  rw [grafted, size_attach, size_alloc]

/-- Two trees with the same parts of nodes. -/
def SameView (view : Node → α) (t t' : NodeTree) : Prop :=
  t'.size = t.size ∧ ∀ i, t'.view? view i = t.view? view i

namespace SameView

variable {t t' t'' : NodeTree}

theorem refl (t : NodeTree) : SameView view t t := ⟨rfl, fun _ ↦ rfl⟩

theorem trans (h : SameView view t t') (h' : SameView view t' t'') : SameView view t t'' :=
  ⟨h'.1.trans h.1, fun i ↦ (h'.2 i).trans (h.2 i)⟩

theorem foldl {β : Type} {f : NodeTree → β → NodeTree} (hf : ∀ t b, SameView view t (f t b))
    (l : List β) (t : NodeTree) : SameView view t (l.foldl f t) :=
  List.foldlRecOn l f (.refl t) fun t' h b _ ↦ h.trans (hf t' b)

end SameView

end NodeTree

namespace Steady

theorem modify (h : Steady view) (t : NodeTree) (id : NodeId) {f : Node → Node}
    (hf : ∀ n, view (f n) = view n) : SameView view t (t.modify id f) :=
  ⟨size_modify _ _ _, view?_modify t id fun n ↦ (h.number _ _).trans (hf n)⟩

/-! ### Attaching nodes -/

theorem attach (h : Steady view) (t : NodeTree) (parent child : NodeId)
    (layoutParent : Option NodeId) (i : NodeId) :
    (t.attach parent child layoutParent).2.view? view i = t.view? view i := by
  have hchild : SameView view t (t.modify parent (NodeTree.addChild child)) :=
    h.modify t parent (h.addChild child)
  unfold NodeTree.attach
  split
  · rfl
  · rfl
  · dsimp only
    split
    · exact (hchild.trans (h.modify _ child (h.under _ _ _ _))).2 i
    · split
      · exact hchild.2 i
      · exact ((hchild.trans (h.modify _ _ (h.addMember child))).trans
          (h.modify _ child (h.under _ _ _ _))).2 i

/-- **A node that is made and attached** is the only new one. -/
theorem grafted (h : Steady view) (t : NodeTree) (kind : NodeKind) (tag : String)
    (parent : NodeId) (layoutParent : Option NodeId) (i : NodeId) :
    (Sown.grafted t kind tag parent layoutParent).view? view i =
      if i = t.size then some (view (.new t.size kind tag)) else t.view? view i := by
  rw [Sown.grafted, h.attach, view?_alloc]

/-! ### After the walk -/

theorem atEach {change : NodeTree → Node → NodeTree}
    (hchange : ∀ t n, SameView view t (change t n)) (t : NodeTree) (root : NodeId) :
    SameView view t (Ingest.atEach change t root) := by
  unfold Ingest.atEach
  split
  · exact .refl t
  · refine .foldl (fun t id ↦ ?_) _ t
    split
    · exact hchange t _
    · exact .refl t

theorem collapseText (h : Steady view) (t : NodeTree) (n : Node) :
    SameView view t (Ingest.collapseText t n) := by
  unfold Ingest.collapseText
  split
  · split
    · split
      · exact (h.modify t _ (h.collapsed _)).trans (h.modify _ _ h.excluded)
      · exact .refl t
    · exact .refl t
  · exact .refl t

theorem gatherOptions (h : Steady view) (t : NodeTree) (n : Node) :
    SameView view t (Ingest.gatherOptions t n) := by
  unfold Ingest.gatherOptions
  split
  · exact (SameView.foldl (fun t c ↦ h.modify t _ h.excluded) _ t).trans
      (h.modify _ _ (h.gathered _))
  · exact .refl t

theorem bindCompanion (h : Steady view) (root : NodeId) (t : NodeTree) (n : Node) :
    SameView view t (Ingest.bindCompanion root t n) := by
  unfold Ingest.bindCompanion
  split
  · split
    · exact h.modify t _ (h.bound _)
    · exact .refl t
  · exact .refl t

/-- **All changes after the walk** leave the part as it is. -/
theorem finished (h : Steady view) (t : NodeTree) (root : NodeId) :
    SameView view t (Ingest.atEach (Ingest.bindCompanion root) (Ingest.atEach Ingest.gatherOptions
      (Ingest.atEach Ingest.collapseText t root) root) root) :=
  ((atEach h.collapseText t root).trans (atEach h.gatherOptions _ root)).trans
    (atEach (h.bindCompanion root) _ root)

end Steady

end ViewCompiler
