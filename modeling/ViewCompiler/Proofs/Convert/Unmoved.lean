import ViewCompiler.Convert.Images
import ViewCompiler.Convert.Targets
import ViewCompiler.Proofs.Layout.Links

/-!
# Steps of a conversion that move nothing

Reports, sizes of images, attributes, styles and depths in the output leave the nodes where they
are. `Context.Unmoved` is `NodeTree.Unmoved` for a context: documents and hosts are the same too,
no report is withdrawn, and what is reported is not about a slot, so that a conversion that goes
wrong at no slot before such a step has not gone wrong at one after it (`Context.Unmoved.filled`).
-/

namespace ViewCompiler

/-- A report about a slot that could not be filled. -/
def Diagnostic.isAboutSlot (d : Diagnostic) : Bool :=
  d.kind == .unresolvedPlaceholder || d.kind == .placeholderCycle

namespace Context

/-- No slot has been reported. -/
def Filled (c : Context) : Prop := ∀ d ∈ c.diagnostics, d.isAboutSlot = false

/-- Two contexts with the same nodes in the same places. -/
structure Unmoved (c c' : Context) : Prop where
  tree : NodeTree.Unmoved c.tree c'.tree
  documents : c'.documents = c.documents
  hosts : c'.hosts = c.hosts
  kept : c.diagnostics ⊆ c'.diagnostics
  reports : ∀ d ∈ c'.diagnostics, d ∈ c.diagnostics ∨ d.isAboutSlot = false

namespace Unmoved

variable {c c' c'' : Context}

theorem refl (c : Context) : Unmoved c c :=
  ⟨.refl _, rfl, rfl, List.Subset.refl _, fun _ hd ↦ .inl hd⟩

theorem trans (h : Unmoved c c') (h' : Unmoved c' c'') : Unmoved c c'' where
  tree := h.tree.trans h'.tree
  documents := h'.documents.trans h.documents
  hosts := h'.hosts.trans h.hosts
  kept := List.Subset.trans h.kept h'.kept
  reports d hd := (h'.reports d hd).elim (h.reports d) .inr

theorem filled (h : Unmoved c c') (hc : c.Filled) : c'.Filled := fun d hd ↦
  (h.reports d hd).elim (hc d) id

/-- **Steps that move nothing move nothing together.** -/
theorem foldl {α : Type} {f : Context → α → Context} (hf : ∀ c a, Unmoved c (f c a))
    (l : List α) (c : Context) : Unmoved c (l.foldl f c) := by
  induction l generalizing c with
  | nil => exact refl c
  | cons a r ih => exact (hf c a).trans (ih (f c a))

theorem of_tree {t : NodeTree} (h : NodeTree.Unmoved c.tree t) : Unmoved c { c with tree := t } :=
  ⟨h, rfl, rfl, List.Subset.refl _, fun _ hd ↦ .inl hd⟩

end Unmoved

variable (c : Context)

theorem unmoved_report {d : Diagnostic} (hd : d.isAboutSlot = false) :
    Unmoved c (c.report d) where
  tree := .refl _
  documents := rfl
  hosts := rfl
  kept := List.subset_append_left _ _
  reports e he := by
    rcases List.mem_append.1 he with he | he
    · exact .inl he
    · exact .inr (List.mem_singleton.1 he ▸ hd)

theorem unmoved_modifyNode (id : NodeId) {f : Node → Node} (hlinks : ∀ n, (f n).links = n.links)
    (hplace : ∀ n, (f n).place = n.place) : Unmoved c (c.modifyNode id f) :=
  .of_tree (NodeTree.unmoved_modify _ id hlinks hplace)

/-! ### Images -/

theorem unmoved_loadImage (loader : ImageLoader) (image : String × List NodeId) :
    Unmoved c (loadImage loader c image) := by
  have hsize : ∀ (size : Size) (c : Context),
      Unmoved c (image.2.foldl (fun c id ↦ c.modifyNode id fun n ↦ n.withImageSize size) c) :=
    fun size ↦ .foldl (fun c id ↦ unmoved_modifyNode c id (fun _ ↦ by rfl) (fun _ ↦ by rfl)) _
  rw [loadImage]
  dsimp only
  cases loader image.1 with
  | ok size => exact hsize size c
  | error e => exact (unmoved_report c (by rfl)).trans (hsize .zero _)

theorem unmoved_loadImages (loader : ImageLoader) : Unmoved c (c.loadImages loader) :=
  .foldl (fun c ↦ unmoved_loadImage c loader) _ c

/-! ### Attributes and styles -/

theorem unmoved_finalize (d : Dialect) (id : NodeId) : Unmoved c (c.finalize d id) := by
  have htree : NodeTree.Unmoved c.tree (c.finalize d id).tree :=
    NodeTree.unmoved_modify c.tree id (fun _ ↦ by rfl) (fun _ ↦ by rfl)
  exact ⟨htree, rfl, rfl, List.Subset.refl _, fun _ he ↦ .inl he⟩

theorem unmoved_share (d : Dialect) (config : SharingConfig) (rendered : List NodeId) :
    Unmoved c (c.share d config rendered).2 := by
  rw [share]
  dsimp only
  refine Unmoved.trans (.foldl (fun c e ↦ ?_) _ c) (.foldl (fun c e ↦ ?_) _ _)
  all_goals exact unmoved_modifyNode c e.1 (fun _ ↦ by rfl) (fun _ ↦ by rfl)

end Context

/-! ### Depths in the output -/

namespace NodeTree

theorem unmoved_visitLevel (depth : Nat) (s : NodeTree × List NodeId × List NodeId) (id : NodeId) :
    Unmoved s.1 (visitLevel depth s id).1 := by
  rw [visitLevel]
  split
  · exact .refl _
  · split
    · exact .refl _
    · exact unmoved_modify _ id (fun _ ↦ by rfl) (fun _ ↦ by rfl)

theorem unmoved_visitLevels (t : NodeTree) (seen : List NodeId) (depth fuel : Nat)
    (level : List NodeId) : Unmoved t (t.visitLevels seen depth fuel level) := by
  induction fuel generalizing t seen depth level with
  | zero => cases level <;> exact .refl t
  | succ fuel ih =>
    cases level with
    | nil => exact .refl t
    | cons id r =>
      have hlevel : ∀ (ids : List NodeId) (s : NodeTree × List NodeId × List NodeId),
          Unmoved s.1 (ids.foldl (visitLevel depth) s).1 := fun ids ↦ by
        induction ids with
        | nil => exact fun s ↦ .refl s.1
        | cons i ids ih => exact fun s ↦ (unmoved_visitLevel depth s i).trans (ih _)
      exact (hlevel (id :: r) (t, seen, [])).trans (ih _ _ _ _)

theorem unmoved_computeRenderDepths (t : NodeTree) : Unmoved t t.computeRenderDepths :=
  unmoved_visitLevels _ _ _ _ _

end NodeTree

end ViewCompiler
