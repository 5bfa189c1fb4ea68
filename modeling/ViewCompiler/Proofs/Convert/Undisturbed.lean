import ViewCompiler.Convert.Decisions
import ViewCompiler.Proofs.Convert.Hooks
import ViewCompiler.Proofs.Layout.ParentOrder

/-!
# Decisions without extensions

Without extensions, and if a conversion is not to stop, deciding on all documents is classifying
their runs one after another (`Decided.tree_documents_eq`).
-/

namespace ViewCompiler

open NodeTree

variable {σ : Type} {h : Host σ} (hnil : h.extensions = [])

namespace Decided

include hnil

theorem tree_record (name : String) (d : Decided σ) (e : LayoutDecision) :
    (record h name d e).run.context.tree = d.run.context.tree := by
  unfold record
  dsimp only
  rw [Run.notify_of_nil hnil]
  split <;> rfl

/-- Taking decisions over changes no node. -/
theorem tree_recordAll (name : String) (es : List LayoutDecision) (d : Decided σ) :
    (es.foldl (record h name) d).run.context.tree = d.run.context.tree :=
  List.foldlRecOn (motive := fun d' ↦ d'.run.context.tree = d.run.context.tree) es (record h name)
    rfl fun d' hd e _ ↦ (tree_record hnil name d' e).trans hd

/-- **Deciding on a node** is classifying its run. -/
theorem exists_decideNode_of_run (layout : LayoutConfig) (name : String) {x : NodeId}
    {d : Decided σ} {o : ClassifyOutcome} {t : NodeTree}
    (hok : Classify.run layout d.run.context.tree x = .ok (o, t)) :
    ∃ d', d.decideNode h layout name x = (.ok (), d') ∧ d'.run.context.tree = t := by
  unfold decideNode
  rw [Run.dispatch_of_nil hnil]
  dsimp only
  unfold classify
  rw [hok]
  refine ⟨_, rfl, (tree_recordAll hnil name o.decisions _).trans ?_⟩
  exact List.foldlRecOn (motive := fun c : Context ↦ c.tree = t) o.skipped _ rfl fun c hc _ _ ↦ hc

/-- **Deciding on nodes** is classifying their runs. -/
theorem exists_decideAll_of_runs (layout : LayoutConfig) (name : String) {xs : List NodeId}
    {d : Decided σ} {o : ClassifyOutcome} {t : NodeTree}
    (hok : Classify.runs layout d.run.context.tree xs = .ok (o, t)) :
    ∃ d', d.decideAll h layout name xs = (.ok (), d') ∧ d'.run.context.tree = t := by
  induction xs generalizing d o with
  | nil =>
    rw [Classify.runs] at hok
    exact ⟨d, rfl, (Prod.mk.inj (Except.ok.inj hok)).2⟩
  | cons x r ih =>
    obtain ⟨o₁, t₁, o₂, hfirst, hrest, -⟩ := Classify.runs_cons_cases hok
    obtain ⟨d₁, hnode, rfl⟩ := exists_decideNode_of_run hnil layout name hfirst
    obtain ⟨d', hall, hd'⟩ := ih hrest
    exact ⟨d', by rw [decideAll, hnode]; exact hall, hd'⟩

/-- Documents one after another, of which the first have been decided on. -/
theorem tree_documents (layout : LayoutConfig) (hruns : ∀ s, (h.cancelled s).1 = false)
    {t : NodeTree} (ht : Sown t) {rest : List DocumentEntry}
    (hroots : ∀ e ∈ rest, t.kind? e.root = some .root) {settled : List NodeId} {d : Decided σ}
    (harranged : Arranged [] settled d.run.context.tree) (hext : Extended t d.run.context.tree)
    {o : ClassifyOutcome} {t' : NodeTree}
    (hok : Classify.runs layout d.run.context.tree
      (t.parentOrder (rest.map DocumentEntry.root)) = .ok (o, t')) :
    (rest.foldl (document h layout) d).run.context.tree = t' := by
  induction rest generalizing settled d o with
  | nil =>
    rw [List.map_nil, parentOrder, List.flatMap_nil, Classify.runs] at hok
    exact (Prod.mk.inj (Except.ok.inj hok)).2
  | cons e r ih =>
    have hroot := hroots e List.mem_cons_self
    obtain ⟨xs, hxs, -⟩ := ht.exists_parents hroot
    have horder : d.run.context.tree.classificationOrder e.root = .ok xs :=
      (hext.classificationOrder_eq ht.forest (lt_size_of_kind? hroot)).trans hxs
    rw [List.map_cons, ← List.singleton_append, parentOrder_append,
      show t.parentOrder [e.root] = xs by simp [parentOrder, hxs, Except.toOption]] at hok
    obtain ⟨o₁, t₁, o₂, hfirst, hrest⟩ := Classify.exists_runs_append hok
    have hkinds : ∀ x ∈ xs, ∃ k, d.run.context.tree.kind? x = some k ∧ k ≠ .group ∧ k ≠ .host :=
      fun x hx ↦ by
        have hmem : x ∈ t.parentOrder [e.root] := by simpa [parentOrder, hxs, Except.toOption]
        obtain ⟨k, hk, hne⟩ := ht.kind?_of_mem_parentOrder (show ∀ root ∈ [e.root], _ by simpa) hmem
        exact ⟨k, hext.kind?_eq hk, hne⟩
    obtain ⟨o₃, t₃, hmade, harranged', hext'⟩ := harranged.exists_runs layout hkinds
    obtain ⟨-, rfl⟩ := Prod.mk.inj (Except.ok.inj (hfirst.symm.trans hmade))
    obtain ⟨s, hpoll⟩ := Run.exists_poll h d.run
    rw [hruns] at hpoll
    obtain ⟨d', hall, hd'⟩ := exists_decideAll_of_runs hnil layout e.name
      (d := { d with run := ⟨d.run.context, s⟩ }) hfirst
    have hstep : d.document h layout e = d' := by
      rw [document, hpoll]
      dsimp only
      rw [decideDocument, horder]
      dsimp only
      rw [hall]
    rw [List.foldl_cons, hstep]
    subst hd'
    exact ih (fun e he ↦ hroots e (List.mem_cons_of_mem _ he)) harranged' (hext.trans hext') hrest

/-- **Deciding on all documents** is classifying the runs of all of them. -/
theorem tree_documents_eq (layout : LayoutConfig) (hruns : ∀ s, (h.cancelled s).1 = false)
    {r : Run σ} (hr : Sown r.context.tree)
    (hroots : ∀ e ∈ r.context.documents, r.context.tree.kind? e.root = some .root)
    {o : ClassifyOutcome} {t' : NodeTree} (hok : Classify.runs layout r.context.tree
      (r.context.tree.parentOrder (r.context.documents.map DocumentEntry.root)) = .ok (o, t')) :
    (documents h layout r).run.context.tree = t' :=
  tree_documents hnil layout hruns hr hroots (.of_sown hr) (.of_links fun _ ↦ rfl) hok

end Decided

end ViewCompiler
