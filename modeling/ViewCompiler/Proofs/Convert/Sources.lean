import ViewCompiler.Proofs.Convert.Decisions
import ViewCompiler.Proofs.Convert.Further

/-!
# Elements and their nodes

When the documents of a provider have been made into nodes, every node is one of an element, and two
nodes that are laid out in one document are those of different elements
(`Converter.sourced`). Nothing has been decided about any of them, and asking for the sizes
of images decides nothing either.

A document that is offered twice has its nodes twice, so nothing of the kind can be said of
different documents.
-/

namespace ViewCompiler

open NodeTree

variable {σ : Type}

/-- **What holds of the nodes of documents** that come from a provider. -/
structure Context.Sourced (p : Provider) (c : Context) : Prop where
  sprouted : Sprouted .empty c.tree
  node : ∀ i o, c.tree.origin? i = some o → ∃ h, o.Of p h
  once : ∀ e ∈ c.documents, ∀ i j o o', Inside c.tree.layoutRun e.root i →
    Inside c.tree.layoutRun e.root j → c.tree.origin? i = some o → c.tree.origin? j = some o' →
    o.element = o'.element → i = j

/-- The nodes inside a node of the first documents are the same. -/
theorem Sprouted.inside_old {t t' : NodeTree} (h : Sprouted t t') (ht : Sprouted .empty t)
    {root x : NodeId} (hroot : root < t.size) (hx : Inside t'.layoutRun root x) :
    Inside t.layoutRun root x ∧ x < t.size := by
  induction hx with
  | refl => exact ⟨.refl, hroot⟩
  | @tail y z _ hz ih =>
    have hsame : t'.layoutRun y = t.layoutRun y := by
      rw [layoutRun, layoutRun, links?, links?, h.old y ih.2]
    rw [hsame] at hz
    exact ⟨ih.1.tail hz, (ht.layoutRun_bounds (Nat.zero_le y) hz).2⟩

namespace Context.Sourced

variable {p : Provider} {c c' : Context}

theorem new (p : Provider) (values : ValueStore) : (Context.new values).Sourced p where
  sprouted := .refl _
  node i _ ho := absurd (lt_size_of_origin? ho) (Nat.not_lt_zero i)
  once _ he := absurd he List.not_mem_nil

theorem of_eq (h : c.Sourced p) (htree : c'.tree = c.tree)
    (hdocuments : c'.documents = c.documents) : c'.Sourced p := by
  obtain ⟨hsprouted, hnode, honce⟩ := h
  refine ⟨?_, ?_, ?_⟩ <;> simp only [htree, hdocuments]
  exacts [hsprouted, hnode, honce]

/-- **One more document.** -/
theorem grow (h : c.Sourced p) (hc : c.Ingested) {warned warned' : List String} {element : Handle}
    {report : IngestReport} {t : NodeTree}
    (hdocument : Ingest.document p c.tree warned element = .ok (report, t, warned')) :
    Sourced p { c with tree := t } ∧ ∀ root, report.root = some root → ∀ name,
      Sourced p ({ c with tree := t }.addDocument name root) := by
  obtain ⟨hsprouted, hroot⟩ := Ingest.sprouted_document h.sprouted hdocument
  obtain ⟨met, hmade⟩ := Ingest.sourced_document hdocument
  have hnode : ∀ i o, t.origin? i = some o → ∃ x, o.Of p x := fun i o ho ↦ by
    rcases hmade.node i o ho with hold | ⟨-, x, -, hof⟩
    · exact h.node i o hold
    · exact ⟨x, hof⟩
  have honce : ∀ e ∈ c.documents, ∀ i j o o', Inside t.layoutRun e.root i →
      Inside t.layoutRun e.root j → t.origin? i = some o → t.origin? j = some o' →
      o.element = o'.element → i = j := by
    intro e he i j o o' hi hj ho ho' heq
    obtain ⟨hi, hilt⟩ := hsprouted.inside_old h.sprouted (hc.root_lt_size he) hi
    obtain ⟨hj, hjlt⟩ := hsprouted.inside_old h.sprouted (hc.root_lt_size he) hj
    rw [origin?, hsprouted.old i hilt] at ho
    rw [origin?, hsprouted.old j hjlt] at ho'
    exact h.once e he i j o o' hi hj ho ho' heq
  have hgrown := h.sprouted.trans hsprouted
  refine ⟨⟨hgrown, hnode, honce⟩, fun root hr name ↦ ⟨hgrown, hnode, ?_⟩⟩
  intro e he i j o o' hi hj ho ho' heq
  rcases List.mem_append.1 he with he | he
  · exact honce e he i j o o' hi hj ho ho' heq
  · obtain rfl := List.mem_singleton.1 he
    have hlt : root < t.size :=
      lt_size_of_kind? ((Ingest.grown_document hc.sown hdocument).2 root hr).2
    have hle : c.tree.size ≤ root := (hroot root hr).ge
    exact hmade.once i j o o' (hsprouted.inside_bounds hle hlt hi).1
      (hsprouted.inside_bounds hle hlt hj).1 ho ho' heq

/-- The sizes of images. -/
theorem loadImages (h : c.Sourced p) (loader : ImageLoader) : (c.loadImages loader).Sourced p := by
  have horigin : ∀ i, (c.loadImages loader).tree.origin? i = c.tree.origin? i := fun i ↦ by
    have hsized : ∀ n : Node, (n.sized loader).origin = n.origin := fun n ↦ by
      unfold Node.sized
      split <;> rfl
    rw [origin?, get?_loadImages, Option.map_map, origin?]
    exact congrArg (Option.map · (c.tree.get? i)) (funext hsized)
  have hunmoved := c.unmoved_loadImages loader
  refine ⟨h.sprouted.of_map (Node.refs_sized loader) (fun _ ↦ rfl) (get?_loadImages loader c),
    fun i o ho ↦ h.node i o (horigin i ▸ ho), fun e he i j o o' hi hj ho ho' heq ↦ ?_⟩
  rw [hunmoved.tree.extended.layoutRun_eq] at hi hj
  exact h.once e (hunmoved.documents ▸ he) i j o o' hi hj (horigin i ▸ ho) (horigin j ▸ ho') heq

end Context.Sourced

/-! ### Ingestion -/

namespace Run

open Context

variable {h : Host σ} (hnil : h.extensions = []) (p : Provider) {s : Run σ × List String}

include hnil

theorem sourced_ingestRoot (name : String) (element : Handle) (hs : s.1.context.Ingested)
    (hsourced : s.1.context.Sourced p) :
    (ingestRoot h p name element s).1.context.Sourced p := by
  obtain ⟨r, warned⟩ := s
  unfold ingestRoot
  dsimp only at hs hsourced ⊢
  cases hdocument : Ingest.document p r.context.tree warned element with
  | error e => refine hsourced.of_eq ?_ ?_ <;> rfl
  | ok made =>
    obtain ⟨report, t, warned'⟩ := made
    obtain ⟨hmade, hadded⟩ := hsourced.grow hs hdocument
    obtain ⟨htree, hdocuments⟩ := reportIngestion_keeps name report { r.context with tree := t }
    dsimp only
    cases hr : report.root with
    | none => exact hmade.of_eq htree hdocuments
    | some root =>
      dsimp only
      rw [notify_of_nil hnil]
      exact (hadded root hr name).of_eq htree (congrArg (· ++ [_]) hdocuments)

theorem sourced_ingestDocument (d : DocumentRoot) (hs : s.1.context.Ingested)
    (hsourced : s.1.context.Sourced p) : (ingestDocument h p s d).1.context.Sourced p := by
  obtain ⟨r, warned⟩ := s
  obtain ⟨s, hpoll⟩ := exists_poll h r
  unfold ingestDocument
  dsimp only at hs hsourced ⊢
  rw [hpoll]
  cases (h.cancelled r.host).1 with
  | true => refine hsourced.of_eq ?_ ?_ <;> rfl
  | false =>
    dsimp only
    rw [notify_of_nil hnil]
    cases d.root with
    | none => refine hsourced.of_eq ?_ ?_ <;> rfl
    | some element =>
      exact sourced_ingestRoot hnil p d.name element (s := (⟨r.context, s⟩, warned)) hs hsourced

/-- **After all documents have been made into nodes.** -/
theorem sourced_ingest {r : Run σ} (hr : r.context.Ingested) (hsourced : r.context.Sourced p) :
    (ingest h p r).context.Sourced p :=
  (List.foldlRecOn (motive := fun s : Run σ × List String ↦
    s.1.context.Ingested ∧ s.1.context.Sourced p) p.documents (ingestDocument h p) (b := (r, []))
    ⟨hr, hsourced⟩ fun _ hs d _ ↦ ⟨ingested_ingestDocument
      (Host.obeys_of_extensions_eq_nil hnil .decides) p d hs.1,
      sourced_ingestDocument hnil p d hs.1 hs.2⟩).2

end Run

/-- **The nodes of a conversion**, when the sizes of images have been asked for. -/
theorem Converter.sourced (c : Converter σ) (hnil : c.host.extensions = []) (p : Provider)
    (palette : Palette) (s : σ) : (c.loadImages (c.ingest p palette s)).context.Sourced p := by
  have hsourced : (c.ingest p palette s).context.Sourced p :=
    Run.sourced_ingest hnil p (Context.Ingested.new _) (Context.Sourced.new p _)
  unfold loadImages
  cases c.loader with
  | none => exact hsourced
  | some loader => exact hsourced.loadImages loader

end ViewCompiler
