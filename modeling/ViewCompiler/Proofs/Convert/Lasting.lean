import ViewCompiler.Convert
import ViewCompiler.Proofs.Layout.Said

/-!
# What lasts through a conversion

Before attributes are given to the nodes, a conversion reports, lists documents, makes nodes and
changes them, and nothing else: no value is stored, no order is rejected, and whatever holds of what
the nodes of new documents say (`Provider.Says`) holds of what all nodes say. `Context.Lasting` says
of a fact that it outlasts such steps. If the extensions keep it too (`Host.Keeps`), it still holds
when all documents have been decided on (`Converter.lasting_decided`).
-/

namespace ViewCompiler

variable {σ : Type}

/-- A provider of documents whose nodes say nothing but what satisfies `Q`. -/
structure Provider.Says (p : Provider) (Q : Said → Prop) : Prop where
  nothing : Q .nothing
  document : ∀ {t t' : NodeTree} {warned warned' : List String} {element : Handle}
    {report : IngestReport}, t.AllSay Q →
      Ingest.document p t warned element = .ok (report, t', warned') → t'.AllSay Q

/-- No document has a node with a style. -/
theorem Provider.says_unstyled (p : Provider) : p.Says fun said ↦ said.styleRef = none where
  nothing := rfl
  document := Ingest.unstyled_document

/-- A fact that outlasts reports, but for those of rejected orders, another list of documents, and
other nodes as long as what these say satisfies `Q` too. -/
structure Context.Lasting (Q : Said → Prop) (P : Context → Prop) : Prop where
  report : ∀ {c : Context} (d : Diagnostic), d.kind ≠ .rejectedReorder → P c → P (c.report d)
  documents : ∀ {c : Context} (l : List DocumentEntry), P c → P { c with documents := l }
  tree : ∀ {c : Context} {t : NodeTree}, P c → (c.tree.AllSay Q → t.AllSay Q) →
    P { c with tree := t }

/-- No order has been rejected. -/
def Context.Unrejected (c : Context) : Prop := ∀ d ∈ c.diagnostics, d.kind ≠ .rejectedReorder

/-- **Before the assembly no order is rejected.** -/
theorem Context.lasting_unrejected (Q : Said → Prop) : Context.Lasting Q Context.Unrejected where
  report d hkind h e he := by
    rcases List.mem_append.1 he with he | he
    · exact h e he
    · exact List.mem_singleton.1 he ▸ hkind
  documents _ h := h
  tree h _ := h

/-- Extensions that keep a fact. -/
def Host.Keeps (P : Context → Prop) (h : Host σ) : Prop :=
  ∀ e ∈ h.extensions, ∀ point node c s, P c → P (e.onHook point node c s).2.1

theorem Host.keeps_of_extensions_eq_nil {h : Host σ} (hnil : h.extensions = [])
    (P : Context → Prop) : h.Keeps P := fun e he ↦ by
  rw [hnil] at he
  exact absurd he List.not_mem_nil

namespace Context.Lasting

variable {Q : Said → Prop} {P : Context → Prop} (hP : Context.Lasting Q P) {h : Host σ}
  (hh : h.Keeps P)

include hP in
theorem reports {α : Type} {f : Context → α → Context}
    (hf : ∀ c a, ∃ d, f c a = Context.report c d ∧ d.kind ≠ .rejectedReorder) (l : List α)
    {c : Context} (hc : P c) : P (l.foldl f c) :=
  List.foldlRecOn l f hc fun c hc a _ ↦ by
    obtain ⟨d, hd, hkind⟩ := hf c a
    exact hd ▸ hP.report d hkind hc

/-! ### Extensions -/

include hh in
theorem dispatch (point : HookPoint) (node : Option NodeId) {r : Run σ} (hr : P r.context) :
    P (r.dispatch h point node).2.context := by
  have hask : ∀ (es : List (Extension σ)), (∀ e ∈ es, e ∈ h.extensions) → ∀ r : Run σ,
      P r.context → P (Run.ask point node es r).2.context := fun es ↦ by
    induction es with
    | nil => exact fun _ _ hr ↦ hr
    | cons e es ih =>
      intro hes r hr
      have he := hh e (hes e List.mem_cons_self) point node r.context r.host hr
      rw [Run.ask]
      dsimp only
      split
      · exact ih (fun e he ↦ hes e (List.mem_cons_of_mem _ he)) _ he
      · exact he
  exact hask h.extensions (fun _ he ↦ he) r hr

include hP in
theorem ignore (point : HookPoint) (document : Option String) (node : Option NodeId)
    (action : HookAction) {r : Run σ} (hr : P r.context) :
    P (r.ignore point document node action).context := by
  rw [Run.ignore]
  split
  · exact hr
  · exact hP.report _ (by simp) hr

include hP hh

theorem notify (point : HookPoint) (document : Option String) (node : Option NodeId) {r : Run σ}
    (hr : P r.context) : P (r.notify h point document node).context :=
  hP.ignore point document node _ (dispatch hh point node hr)

/-! ### Documents -/

section

variable {p : Provider} (hp : p.Says Q)

include hp

theorem ingestRoot (name : String) (element : Handle) {s : Run σ × List String}
    (hs : P s.1.context) : P (Run.ingestRoot h p name element s).1.context := by
  obtain ⟨r, warned⟩ := s
  unfold Run.ingestRoot
  dsimp only at hs ⊢
  cases hdocument : Ingest.document p r.context.tree warned element with
  | error e => exact hP.report _ (by simp) hs
  | ok made =>
    obtain ⟨report, t, warned'⟩ := made
    have hmade : P { r.context with tree := t } :=
      hP.tree hs fun ht ↦ hp.document ht hdocument
    have hreported : P (Run.reportIngestion name report { r.context with tree := t }) :=
      hP.reports (fun _ _ ↦ ⟨_, rfl, by simp⟩) _ (hP.reports (fun _ _ ↦ ⟨_, rfl, by simp⟩) _ hmade)
    dsimp only
    cases report.root with
    | none => exact hP.report _ (by simp) hreported
    | some root => exact hP.notify hh _ _ _ (hP.documents _ hreported)

theorem ingestDocument (d : DocumentRoot) {s : Run σ × List String}
    (hs : P s.1.context) : P (Run.ingestDocument h p s d).1.context := by
  obtain ⟨r, warned⟩ := s
  unfold Run.ingestDocument
  dsimp only [Run.poll] at hs ⊢
  cases (h.cancelled r.host).1 with
  | true => exact hP.report _ (by simp) hs
  | false =>
    have hnotified := hP.notify hh .beforeIngest (some d.name) none
      (r := { r with host := (h.cancelled r.host).2 }) hs
    dsimp only
    cases d.root with
    | none => exact hP.report _ (by simp) hnotified
    | some element => exact hP.ingestRoot hh hp d.name element hnotified

theorem ingest {r : Run σ} (hr : P r.context) : P (Run.ingest h p r).context :=
  List.foldlRecOn (motive := fun s : Run σ × List String ↦ P s.1.context) p.documents
    (Run.ingestDocument h p) (b := (r, [])) hr fun _ hs d _ ↦ hP.ingestDocument hh hp d hs

end

/-! ### Decisions -/

theorem record (name : String) (decision : LayoutDecision) {d : Decided σ}
    (hd : P d.run.context) : P (d.record h name decision).run.context := by
  unfold Decided.record
  refine hP.notify hh _ _ _ ?_
  split
  · exact hP.report _ (by simp) hd
  · exact hd

section

variable (hnothing : Q .nothing)

include hnothing

theorem classify (layout : LayoutConfig) (name : String) (parent : NodeId) {d : Decided σ}
    (hd : P d.run.context) : P (d.classify h layout name parent).2.run.context := by
  unfold Decided.classify
  cases hrun : Classify.run layout d.run.context.tree parent with
  | error e => exact hd
  | ok made =>
    obtain ⟨outcome, t⟩ := made
    have hmade : P { d.run.context with tree := t } :=
      hP.tree hd fun ht ↦ Classify.allSay_run hnothing layout ht hrun
    exact List.foldlRecOn (motive := fun d : Decided σ ↦ P d.run.context) outcome.decisions
      (Decided.record h name) (hP.reports (fun _ _ ↦ ⟨_, rfl, by simp⟩) outcome.skipped hmade)
      fun _ hd e _ ↦ hP.record hh name e hd

theorem decideNode (layout : LayoutConfig) (name : String) (parent : NodeId) {d : Decided σ}
    (hd : P d.run.context) : P (d.decideNode h layout name parent).2.run.context := by
  have hasked := dispatch hh .beforeClassify (some parent) (r := d.run) hd
  unfold Decided.decideNode
  dsimp only
  generalize d.run.dispatch h .beforeClassify (some parent) = answer at hasked
  obtain ⟨action, run⟩ := answer
  cases action with
  | proceed => exact hP.classify hh hnothing layout name parent hasked
  | replace text => exact hP.tree hasked fun ht ↦ ht.modify (fun _ ↦ by rfl) parent
  | redirect target =>
    refine hP.classify hh hnothing layout name parent ?_
    dsimp only [Decided.modify, Run.modify]
    split
    · exact hP.tree hasked fun ht ↦ ht.relocate ‹_›
    · exact hP.report _ (by simp) hasked

theorem decideAll (layout : LayoutConfig) (name : String) (parents : List NodeId) {d : Decided σ}
    (hd : P d.run.context) : P (d.decideAll h layout name parents).2.run.context := by
  induction parents generalizing d with
  | nil => exact hd
  | cons parent r ih =>
    have hfirst := hP.decideNode hh hnothing layout name parent hd
    rw [Decided.decideAll]
    split
    · rename_i d' hok
      exact ih (by rw [hok] at hfirst; exact hfirst)
    · rename_i e d' hok
      rw [hok] at hfirst
      exact hfirst

theorem document (layout : LayoutConfig) (e : DocumentEntry) {d : Decided σ}
    (hd : P d.run.context) : P (d.document h layout e).run.context := by
  unfold Decided.document
  dsimp only [Run.poll]
  cases (h.cancelled d.run.host).1 with
  | true => exact hP.documents _ (hP.report _ (by simp) hd)
  | false =>
    have hdecided : P ((Decided.mk ⟨d.run.context, (h.cancelled d.run.host).2⟩ d.replacements
        d.orders).decideDocument h layout e).2.run.context := by
      unfold Decided.decideDocument
      split
      · exact hd
      · exact hP.decideAll hh hnothing layout e.name _ hd
    dsimp only
    split
    · rename_i d' hok
      rw [hok] at hdecided
      exact hdecided
    · rename_i e' d' hok
      rw [hok] at hdecided
      exact hP.documents _ (hP.report _ (by simp) hdecided)

theorem decided (layout : LayoutConfig) {r : Run σ} (hr : P r.context) :
    P (Decided.documents h layout r).run.context :=
  List.foldlRecOn (motive := fun d : Decided σ ↦ P d.run.context) r.context.documents
    (Decided.document h layout) (b := .new r) hr fun _ hd e _ ↦ hP.document hh hnothing layout e hd

end

end Context.Lasting

namespace Converter

variable {Q : Said → Prop} {P : Context → Prop} (hP : Context.Lasting Q P) {c : Converter σ}
  (hh : c.host.Keeps P)

include hP in
theorem lasting_loadImage (loader : ImageLoader) (image : String × List NodeId) {c : Context}
    (hc : P c) : P (c.loadImage loader image) := by
  have hsize : ∀ (size : Size) {c : Context}, P c →
      P (image.2.foldl (fun c id ↦ c.modifyNode id fun n ↦ n.withImageSize size) c) :=
    fun size c hc ↦ List.foldlRecOn image.2 _ hc fun _ hc id _ ↦
      hP.tree hc fun ht ↦ ht.modify (fun _ ↦ by rfl) id
  rw [Context.loadImage]
  dsimp only
  cases loader image.1 with
  | ok size => exact hsize size hc
  | error e => exact hsize .zero (hP.report _ (by simp) hc)

include hP in
theorem lasting_loadImages {r : Run σ} (hr : P r.context) : P (c.loadImages r).context := by
  rw [loadImages]
  split
  · rename_i loader _
    exact List.foldlRecOn (motive := P) _ (Context.loadImage loader) hr fun _ hc image _ ↦
      lasting_loadImage hP loader image hc
  · exact hr

include hP hh

/-- **A fact that lasts** holds when all documents have been decided on. -/
theorem lasting_decided {p : Provider} (hp : p.Says Q) (palette : Palette) (s : σ)
    (hnew : P (.new (.new c.slug c.config.values palette))) :
    P (Decided.documents c.host c.config.layout
      (c.loadImages (c.ingest p palette s))).run.context :=
  hP.decided hh hp.nothing _ (lasting_loadImages hP (hP.ingest hh hp hnew))

end Converter

end ViewCompiler
