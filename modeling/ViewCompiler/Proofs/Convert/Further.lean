import ViewCompiler.Proofs.Convert.Documents
import ViewCompiler.Proofs.Convert.ImageSizes
import ViewCompiler.Proofs.Layout.Beside
import ViewCompiler.Proofs.Layout.Offered

/-!
# Further documents

What a provider offers is made into nodes document after document, and what has been made of the
first documents does not change when further ones follow (`Run.further_ingest`). Nodes of different
documents do not refer to each other, and asking for the sizes of images changes no reference
(`Context.Further.loadImages`).
-/

namespace ViewCompiler

open NodeTree

/-- An image refers to the same nodes whatever its size is. -/
theorem Node.refs_sized (loader : ImageLoader) (n : Node) : (n.sized loader).refs = n.refs := by
  unfold Node.sized
  split <;> rfl

namespace Context

/-- A context with the nodes and entries of further documents; `names` are those on offer. -/
structure Further (names : List String) (c c' : Context) : Prop where
  sprouted : Sprouted c.tree c'.tree
  documents : ∃ later, c'.documents = c.documents ++ later ∧
    (later.map DocumentEntry.name).Sublist names ∧ ∀ e ∈ later, c.tree.size ≤ e.root

namespace Further

variable {names names' : List String} {c c' c'' : Context}

theorem of_sprouted (h : Sprouted c.tree c'.tree) (hdocuments : c'.documents = c.documents)
    (names : List String) : Further names c c' :=
  ⟨h, [], by rw [hdocuments, List.append_nil], List.nil_sublist _,
    fun _ he ↦ absurd he List.not_mem_nil⟩

theorem of_eq (htree : c'.tree = c.tree) (hdocuments : c'.documents = c.documents)
    (names : List String) : Further names c c' :=
  .of_sprouted (htree ▸ .refl _) hdocuments names

theorem trans (h : Further names c c') (h' : Further names' c' c'') :
    Further (names ++ names') c c'' := by
  obtain ⟨later, hlater, hsub, hroots⟩ := h.documents
  obtain ⟨later', hlater', hsub', hroots'⟩ := h'.documents
  refine ⟨h.sprouted.trans h'.sprouted, later ++ later', ?_, ?_, fun e he ↦ ?_⟩
  · rw [hlater', hlater, List.append_assoc]
  · rw [List.map_append]
    exact hsub.append hsub'
  · rcases List.mem_append.1 he with he | he
    · exact hroots e he
    · exact Nat.le_trans h.sprouted.size_le (hroots' e he)

/-- **The sizes of images** are the same for nodes that are in both contexts. -/
theorem loadImages (h : Further names c c') (loader : ImageLoader) :
    Further names (c.loadImages loader) (c'.loadImages loader) := by
  have hsprouted := h.sprouted.of_map (Node.refs_sized loader) (get?_loadImages loader c)
    (get?_loadImages loader c')
  obtain ⟨later, hlater, hsub, hroots⟩ := h.documents
  have hsize : (c.loadImages loader).tree.size = c.tree.size :=
    (c.unmoved_loadImages loader).tree.size_eq
  refine ⟨hsprouted, later, ?_, hsub, fun e he ↦ hsize ▸ hroots e he⟩
  rw [(c.unmoved_loadImages loader).documents, (c'.unmoved_loadImages loader).documents, hlater]

end Further

end Context

namespace Run

open Context

variable {σ : Type} {h : Host σ}

theorem reportIngestion_keeps (name : String) (report : IngestReport) (c : Context) :
    (reportIngestion name report c).tree = c.tree ∧
      (reportIngestion name report c).documents = c.documents := by
  let keeps : Context → Prop := fun c' ↦ c'.tree = c.tree ∧ c'.documents = c.documents
  have hunmeasured := List.foldlRecOn (motive := keeps) report.unmeasured
    (fun c e ↦ c.warn .unmeasured (some name) none
      ("element " ++ Handle.text e.1 ++ " hidden: " ++ e.2.message)) ⟨rfl, rfl⟩ fun _ hc _ _ ↦ hc
  exact List.foldlRecOn (motive := keeps) report.styleErrors _ hunmeasured fun _ hc _ _ ↦ hc

section

variable (hnil : h.extensions = [])

include hnil

theorem further_ingestRoot (p : Provider) (name : String) (element : Handle)
    {s : Run σ × List String} (hs : Sprouted .empty s.1.context.tree) :
    Further [name] s.1.context (ingestRoot h p name element s).1.context := by
  obtain ⟨r, warned⟩ := s
  unfold ingestRoot
  dsimp only at hs ⊢
  cases hdocument : Ingest.document p r.context.tree warned element with
  | error e => refine .of_eq ?_ ?_ _ <;> rfl
  | ok made =>
    obtain ⟨report, t, warned'⟩ := made
    obtain ⟨hsprouted, hroot⟩ := Ingest.sprouted_document hs hdocument
    obtain ⟨htree, hdocuments⟩ := reportIngestion_keeps name report { r.context with tree := t }
    have hmade : Sprouted r.context.tree
        (reportIngestion name report { r.context with tree := t }).tree := by
      rw [htree]
      exact hsprouted
    dsimp only
    cases hr : report.root with
    | none => refine .of_sprouted ?_ ?_ _ <;> assumption
    | some root =>
      dsimp only
      rw [notify_of_nil hnil]
      refine ⟨hmade, [⟨name, root⟩], ?_, List.Sublist.refl _, fun e he ↦ ?_⟩
      · exact congrArg (· ++ [_]) hdocuments
      · rw [List.mem_singleton.1 he]
        exact (hroot root hr).ge

/-- **One more document.** -/
theorem further_ingestDocument (p : Provider) (d : DocumentRoot) {s : Run σ × List String}
    (hs : Sprouted .empty s.1.context.tree) :
    Further [d.name] s.1.context (ingestDocument h p s d).1.context := by
  obtain ⟨r, warned⟩ := s
  obtain ⟨s, hpoll⟩ := exists_poll h r
  unfold ingestDocument
  dsimp only at hs ⊢
  rw [hpoll]
  cases (h.cancelled r.host).1 with
  | true => refine .of_eq ?_ ?_ _ <;> rfl
  | false =>
    dsimp only
    rw [notify_of_nil hnil]
    cases d.root with
    | none => refine .of_eq ?_ ?_ _ <;> rfl
    | some element =>
      exact further_ingestRoot hnil p d.name element (s := (⟨r.context, s⟩, warned)) hs

/-- **Documents after others.** -/
theorem further_ingestDocuments (p : Provider) (ds : List DocumentRoot)
    {s : Run σ × List String} (hs : Sprouted .empty s.1.context.tree) :
    Further (ds.map DocumentRoot.name) s.1.context
      (ds.foldl (ingestDocument h p) s).1.context := by
  induction ds generalizing s with
  | nil => exact .of_eq rfl rfl _
  | cons d r ih =>
    have hfirst := further_ingestDocument hnil p d hs
    exact hfirst.trans (ih (hs.trans hfirst.sprouted))

end

/-- A document is made into nodes in the same way by providers that say the same of its
elements. -/
theorem ingestDocument_eq {known : Handle → Prop} {p p' : Provider} (hagree : p.Agree known p')
    {d : DocumentRoot} (hknown : ∀ root, d.root = some root → known root)
    (s : Run σ × List String) : ingestDocument h p' s d = ingestDocument h p s d := by
  unfold ingestDocument
  dsimp only
  cases hroot : d.root with
  | none => rfl
  | some element =>
    have hsame : ∀ s : Run σ × List String,
        ingestRoot h p' d.name element s = ingestRoot h p d.name element s := fun s ↦ by
      unfold ingestRoot
      dsimp only
      rw [hagree.document_eq (hknown element hroot)]
    simp only [hsame]

/-- **The documents of a provider** are made into nodes in the same way by a provider that offers
further ones after them. -/
theorem further_ingest (hnil : h.extensions = []) {known : Handle → Prop} {p p' : Provider}
    (hagree : p.Agree known p') {more : List DocumentRoot}
    (hdocuments : p'.documents = p.documents ++ more)
    (hknown : ∀ d ∈ p.documents, ∀ root, d.root = some root → known root) (r : Run σ)
    (hr : r.context.tree = .empty) :
    Sprouted .empty (ingest h p r).context.tree ∧
      Further (more.map DocumentRoot.name) (ingest h p r).context (ingest h p' r).context := by
  have hshared : p.documents.foldl (ingestDocument h p') (r, []) =
      p.documents.foldl (ingestDocument h p) (r, []) :=
    List.foldl_ext _ _ _ fun s d hd ↦ ingestDocument_eq hagree (hknown d hd) s
  have hempty : Sprouted .empty r.context.tree := hr ▸ .refl _
  have hfirst := (further_ingestDocuments hnil p p.documents (s := (r, [])) hempty).sprouted
  have hsprouted := hempty.trans hfirst
  refine ⟨hsprouted, ?_⟩
  rw [ingest, ingest, hdocuments, List.foldl_append, hshared]
  exact further_ingestDocuments hnil p' more hsprouted

end Run

end ViewCompiler
