import ViewCompiler.Convert.Documents
import ViewCompiler.Proofs.Convert.Hooks
import ViewCompiler.Proofs.Convert.Unmoved
import ViewCompiler.Proofs.Layout.Ingestion

/-!
# Documents before classification

`Context.Ingested` is what holds while documents are made into nodes: the tree is sown, every
document has a root of its own, no host has been asked for, and no slot has been reported. It holds
after ingestion if no extension acts before then (`Run.ingested_ingest`).
-/

namespace ViewCompiler

namespace Context

/-- What holds of a context while documents are made into nodes. -/
structure Ingested (c : Context) : Prop where
  sown : Sown c.tree
  roots : ∀ d ∈ c.documents, c.tree.kind? d.root = some .root
  nodup : (c.documents.map DocumentEntry.root).Nodup
  hosts : c.hosts = .empty
  filled : c.Filled

namespace Ingested

variable {c c' : Context}

theorem new (values : ValueStore) : Ingested (.new values) where
  sown := .empty
  roots _ hd := absurd hd List.not_mem_nil
  nodup := .nil
  hosts := rfl
  filled _ hd := absurd hd List.not_mem_nil

theorem of_unmoved (h : Ingested c) (hu : Unmoved c c') : Ingested c' where
  sown := h.sown.of_unmoved hu.tree
  roots d hd := by
    rw [NodeTree.kind?, hu.tree.links]
    exact h.roots d (hu.documents ▸ hd)
  nodup := hu.documents ▸ h.nodup
  hosts := hu.hosts.trans h.hosts
  filled := hu.filled h.filled

theorem grown (h : Ingested c) {t : NodeTree} (hg : Grown c.tree t) :
    Ingested { c with tree := t } where
  sown := hg.sown
  roots d hd := Ingest.kind?_of_kept hg.kept (h.roots d hd)
  nodup := h.nodup
  hosts := h.hosts
  filled := h.filled

/-- **One more document**, with a root that no other document has. -/
theorem addDocument (h : Ingested c) (name : String) {root : NodeId}
    (hkind : c.tree.kind? root = some .root) (hnew : ∀ d ∈ c.documents, d.root ≠ root) :
    Ingested (c.addDocument name root) where
  sown := h.sown
  roots d hd := by
    rcases List.mem_append.1 hd with hd | hd
    · exact h.roots d hd
    · exact List.mem_singleton.1 hd ▸ hkind
  nodup := by
    rw [Context.addDocument, List.map_append, List.map_singleton]
    refine h.nodup.append (List.nodup_singleton _) fun i hi hi' ↦ ?_
    obtain ⟨d, hd, rfl⟩ := List.mem_map.1 hi
    exact hnew d hd (List.mem_singleton.1 hi')
  hosts := h.hosts
  filled := h.filled

/-- **One document less.** -/
theorem removeDocument (h : Ingested c) (root : NodeId) : Ingested (c.removeDocument root) where
  sown := h.sown
  roots d hd := h.roots d (List.mem_filter.1 hd).1
  nodup := h.nodup.sublist (List.filter_sublist.map _)
  hosts := h.hosts
  filled := h.filled

theorem root_lt_size (h : Ingested c) {d : DocumentEntry} (hd : d ∈ c.documents) :
    d.root < c.tree.size := by
  obtain ⟨l, hl, -⟩ := Option.map_eq_some_iff.1 (h.roots d hd)
  exact NodeTree.lt_size_of_links? hl

end Ingested

end Context

namespace Run

open Context

variable {σ : Type} {h : Host σ} {π : Policy}

theorem unmoved_reportIngestion (name : String) (report : IngestReport) (c : Context) :
    Context.Unmoved c (reportIngestion name report c) := by
  rw [reportIngestion]
  refine Unmoved.trans (.foldl (fun c e ↦ ?_) _ c) (.foldl (fun c e ↦ ?_) _ _)
  · exact unmoved_report c (by rfl)
  · exact unmoved_report c (by rfl)

theorem ingested_ingestRoot (hh : h.Obeys π) (p : Provider) (name : String) (element : Handle)
    {s : Run σ × List String} (hs : s.1.context.Ingested) :
    (ingestRoot h p name element s).1.context.Ingested := by
  obtain ⟨r, warned⟩ := s
  unfold ingestRoot
  dsimp only at hs ⊢
  cases hdocument : Ingest.document p r.context.tree warned element with
  | error e => exact hs.of_unmoved (unmoved_report _ (by rfl))
  | ok made =>
    obtain ⟨report, t, warned'⟩ := made
    obtain ⟨hgrown, hroot⟩ := Ingest.grown_document hs.sown hdocument
    have hreported := unmoved_reportIngestion name report { r.context with tree := t }
    have hmade := (hs.grown hgrown).of_unmoved hreported
    dsimp only
    cases hr : report.root with
    | none => exact hmade.of_unmoved (unmoved_report _ (by rfl))
    | some root =>
      obtain ⟨hle, hkind⟩ := hroot root hr
      dsimp only
      obtain ⟨s, hnotify⟩ := exists_notify hh .afterIngest (by simp) (some name)
        (some root) ((r.modify fun c ↦
          reportIngestion name report { c with tree := t }).modify fun c ↦ c.addDocument name root)
      rw [hnotify]
      refine hmade.addDocument name ?_ fun d hd heq ↦ ?_
      · rw [NodeTree.kind?, hreported.tree.links]
        exact hkind
      · rw [hreported.documents] at hd
        exact Nat.not_le.2 (hs.root_lt_size hd) (heq ▸ hle)

theorem ingested_ingestDocument (hh : h.Obeys π) (p : Provider) (d : DocumentRoot)
    {s : Run σ × List String} (hs : s.1.context.Ingested) :
    (ingestDocument h p s d).1.context.Ingested := by
  obtain ⟨r, warned⟩ := s
  obtain ⟨s₁, hpoll⟩ := exists_poll h r
  obtain ⟨s₂, hnotify⟩ := exists_notify hh .beforeIngest (by simp) (some d.name) none
    ⟨r.context, s₁⟩
  rw [ingestDocument]
  simp only [hpoll]
  cases (h.cancelled r.host).1 with
  | true => exact hs.of_unmoved (unmoved_report _ (by rfl))
  | false =>
    simp only [hnotify]
    cases d.root with
    | none => exact hs.of_unmoved (unmoved_report _ (by rfl))
    | some element => exact ingested_ingestRoot hh p d.name element hs

/-- **After all documents have been made into nodes.** -/
theorem ingested_ingest (hh : h.Obeys π) (p : Provider) {r : Run σ}
    (hr : r.context.Ingested) : (ingest h p r).context.Ingested := by
  have hfold : ∀ (ds : List DocumentRoot) (s : Run σ × List String), s.1.context.Ingested →
      (ds.foldl (ingestDocument h p) s).1.context.Ingested := fun ds ↦ by
    induction ds with
    | nil => exact fun _ hs ↦ hs
    | cons d r ih => exact fun s hs ↦ ih _ (ingested_ingestDocument hh p d hs)
  exact hfold p.documents (r, []) hr

end Run

end ViewCompiler
