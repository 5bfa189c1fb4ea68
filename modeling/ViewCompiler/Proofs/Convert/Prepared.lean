import ViewCompiler.Proofs.Convert.Faithful
import ViewCompiler.Proofs.Convert.Lasting
import ViewCompiler.Proofs.Convert.Styles

/-!
# Conversions before their last step

Without extensions a conversion comes to the point at which all documents are assembled and all
attributes are given, and only attributes that nodes share are still to be moved into styles.
`Prepared` is what holds there. How attributes are shared has had no influence so far, so that the
same state is the one before the last step of any other conversion that differs in that only
(`Prepared.assembled`).

`Converter.pages` are the documents that are written, as markup (`Prepared.pages_eq`).
-/

namespace ViewCompiler

open NodeTree

variable {σ : Type}

/-- A conversion that shares attributes in another way. -/
def Converter.withSharing (c : Converter σ) (sharing : SharingConfig) : Converter σ :=
  { c with config := { c.config with sharing := sharing } }

/-- The documents that a conversion writes; none if it fails. -/
def Converter.pages (c : Converter σ) (p : Provider) (s : σ) : List (List Markup) :=
  match c.config.check with
  | .error _ => []
  | .ok palette =>
    match c.assembled p palette s with
    | (.error _, _) => []
    | (.ok a, r) => (a.resolutions r.context.tree).map fun R ↦
      c.target.markup r.context.tree true R.pieces

/-! ### Assembly -/

namespace Decided

theorem assembleLevel_reports {texts : SortedMap NodeId String} {s s' : Assembly × Context}
    {level : List NodeId} (h : assembleLevel texts s level = .ok s') :
    ∃ es : List TemplateError, s'.2 = es.foldl Context.reportRejected s.2 := by
  obtain ⟨a, -, h⟩ := exists_of_bind h
  exact ⟨_, by rw [← Except.ok.inj h]⟩

/-- **Assembling the fragments** does nothing to the context but report orders that could not be
carried out. -/
theorem assemble_reports {d d' : Decided σ} {targets : List Target} {a : Assembly}
    (h : d.assemble targets = .ok (a, d')) :
    ∃ es : List TemplateError, d' = d.modify fun c ↦ es.foldl Context.reportRejected c := by
  have hlevels : ∀ (levels : List (List NodeId)) (s s' : Assembly × Context),
      levels.foldlM (assembleLevel d.replacements) s = .ok s' →
        ∃ es : List TemplateError, s'.2 = es.foldl Context.reportRejected s.2 := fun levels ↦ by
    induction levels with
    | nil =>
      intro s s' hok
      exact ⟨[], by rw [← Except.ok.inj hok]; rfl⟩
    | cons level r ih =>
      intro s s' hok
      rw [List.foldlM_cons] at hok
      obtain ⟨s₁, hlevel, hrest⟩ := exists_of_bind hok
      obtain ⟨es, hes⟩ := assembleLevel_reports hlevel
      obtain ⟨es', hes'⟩ := ih s₁ s' hrest
      exact ⟨es ++ es', by rw [hes', hes, List.foldl_append]⟩
  unfold assemble at h
  dsimp only at h
  split at h
  · exact absurd h (by simp)
  · split at h
    · exact absurd h (by simp)
    · rename_i a' c hok
      obtain ⟨-, rfl⟩ := Prod.mk.inj (Except.ok.inj h)
      obtain ⟨es, hes⟩ := hlevels _ _ _ hok
      exact ⟨es, congrArg (fun c ↦ d.modify fun _ ↦ c) hes⟩

/-- It changes no node and stores no value. -/
theorem assemble_keeps {d d' : Decided σ} {targets : List Target} {a : Assembly}
    (h : d.assemble targets = .ok (a, d')) :
    d'.run.context.tree = d.run.context.tree ∧ d'.run.context.values = d.run.context.values := by
  obtain ⟨es, rfl⟩ := assemble_reports h
  exact List.foldlRecOn (motive := fun c : Context ↦ c.tree = d.run.context.tree ∧
    c.values = d.run.context.values) es Context.reportRejected ⟨rfl, rfl⟩ fun c hc e _ ↦ by
      cases e <;> exact hc

end Decided

/-- What holds before attributes are shared: `d` are the decisions on all documents, `last` is the
context with the attributes of all nodes in the output, and `os` are the outlines of the output. -/
structure Prepared (c : Converter σ) (p : Provider) (palette : Palette) (s : σ) (d : Decided σ)
    (last : Context) (os : List Outline) (assembly : Assembly) (host : σ) : Prop where
  concluded : ∃ moved kept, Concluded .decides c.host (c.answers p palette s) moved
    (c.loadImages (c.ingest p palette s)) kept d
  tree : d.run.context.tree = (Decided.documents c.host c.config.layout
    (c.loadImages (c.ingest p palette s))).run.context.tree.computeRenderDepths
  unstyled : d.run.context.tree.Unstyled
  values : d.run.context.values = .new c.slug c.config.values palette
  outlined : Outlined d.run.context.tree d.run.context.targets os
  attributed : Context.Attributed c.target (os.flatMap Outline.ids) d.run.context last
  gives : ∀ t, List.Forall₂ (fun o (R : Resolution) ↦ R.root = o.id ∧ R.Gives (o.pieces .empty)) os
    (assembly.resolveAll t (d.run.context.targets.map DocumentEntry.root)).1
  /-- Sharing attributes in whatever way ends the conversion. -/
  assembled : ∀ sharing, (c.withSharing sharing).assembled p palette s =
    (.ok ⟨d.run.context.targets, assembly,
      (last.share c.target sharing (os.flatMap Outline.ids)).1⟩,
      ⟨(last.share c.target sharing (os.flatMap Outline.ids)).2, host⟩)

namespace Concluded

variable {c : Converter σ} {p : Provider} {palette : Palette} {s : σ} {l : Answers}
  {moved : List (NodeId × NodeId)} {r kept : Run σ} {d : Decided σ}

/-- **From the decisions to the last step.** Nothing is replaced, and the depths in the output are
known. -/
theorem exists_assembled (hd : Concluded .decides c.host l moved r kept d)
    (hnil : c.host.extensions = []) (hbare : c.target.OnBare) (hnone : d.replacements = .empty) :
    ∃ last os assembly host, Outlined d.run.context.tree d.run.context.targets os ∧
      Context.Attributed c.target (os.flatMap Outline.ids) d.run.context last ∧
      (∀ t, List.Forall₂ (fun o (R : Resolution) ↦ R.root = o.id ∧ R.Gives (o.pieces .empty)) os
        (assembly.resolveAll t (d.run.context.targets.map DocumentEntry.root)).1) ∧
      ∀ d₀ : Decided σ,
        d₀.modify (fun context ↦ { context with tree := context.tree.computeRenderDepths }) = d →
        ∀ sharing, (c.withSharing sharing).assemble d₀ = (.ok ⟨d.run.context.targets, assembly,
          (last.share c.target sharing (os.flatMap Outline.ids)).1⟩,
          ⟨(last.share c.target sharing (os.flatMap Outline.ids)).2, host⟩) := by
  obtain ⟨os, ho⟩ := hd.exists_outlined
  have hrendered : d.renderedNodes d.run.context.targets = .ok (os.flatMap Outline.ids) := by
    rw [Decided.renderedNodes, ho.renderedBelow, hnone]
    exact congrArg Except.ok (List.filter_eq_self.2 fun _ _ ↦ rfl)
  generalize hids : os.flatMap Outline.ids = ids at hrendered
  -- nothing after this looks at how attributes are shared, until the last line
  have hattributed := Context.attributed_foldl hbare (hids ▸ ho.nodup) d.run.context
  have hu : Context.Unmoved d.run.context
      (ids.foldl (Context.finalize c.target) d.run.context) :=
    .foldl (fun c id ↦ Context.unmoved_finalize c _ id) ids _
  have hh := Host.obeys_of_extensions_eq_nil hnil .decides
  obtain ⟨s, hnotify⟩ := Run.exists_notify hh .beforeResourcePass (by simp) none none
    (d.modify fun context ↦ ids.foldl (Context.finalize c.target) context).run
  obtain ⟨a, last, hok, -, hgives⟩ :=
    (hd.of_unmoved hu s).exists_fragments (ho.of_unmoved hu.tree)
  obtain ⟨htree, hvalues⟩ := Decided.assemble_keeps hok
  refine ⟨last, os, a, s, ho, hids ▸ hattributed.of_eq htree hvalues,
    fun t ↦ hnone ▸ hgives t, fun d₀ hd₀ sharing ↦ ?_⟩
  rw [Converter.assemble]
  dsimp only
  rw [hd₀, hrendered]
  dsimp only
  rw [show (c.withSharing sharing).target = c.target from rfl,
    show (c.withSharing sharing).host = c.host from rfl, hnotify]
  simp only [Decided.modify, Run.modify] at hok ⊢
  rw [hok, hids]
  rfl

end Concluded

/-- Why a conversion without extensions fails: the configuration is wrong, or no document has been
made into nodes. -/
inductive Converter.Fails (c : Converter σ) (p : Provider) (s : σ) : ConversionError → Prop
  | config {e : ConfigError} (check : c.config.check = .error e) : Fails c p s (.config e)
  | noRoot {palette : Palette} (check : c.config.check = .ok palette)
    (documents : (c.ingest p palette s).context.documents = []) : Fails c p s .noRoot

/-- The plain conversion fails only if there is no document. -/
theorem Converter.not_fails_plain {p : Provider}
    (hdocuments : (plain.ingest p ⟨[]⟩ ()).context.documents ≠ []) (e : ConversionError) :
    ¬plain.Fails p () e := fun h ↦ by
  have hcheck : plain.config.check = .ok ⟨[]⟩ := rfl
  cases h with
  | config check => exact absurd (hcheck.symm.trans check) (by simp)
  | noRoot check documents =>
    obtain rfl := Except.ok.inj (hcheck.symm.trans check)
    exact hdocuments documents

/-- **Without extensions** a conversion fails at once or gets to its last step. -/
theorem Converter.fails_or_prepared {c : Converter σ} (hnil : c.host.extensions = [])
    (hbare : c.target.OnBare) (p : Provider) (s : σ) :
    (∃ e, c.Fails p s e ∧ ∀ sharing, ((c.withSharing sharing).convert p s).1 = .error e) ∨
      ∃ palette d last os assembly host, c.config.check = .ok palette ∧
        Prepared c p palette s d last os assembly host := by
  cases hcheck : c.config.check with
  | error e =>
    refine .inl ⟨_, .config hcheck, fun sharing ↦ ?_⟩
    rw [convert, show (c.withSharing sharing).config.check = .error e from hcheck]
  | ok palette =>
  by_cases hnone : (c.ingest p palette s).context.documents.isEmpty &&
      decide (Diagnostic.count .cancelled (c.ingest p palette s).context.diagnostics <
        p.documents.length)
  · refine .inl ⟨_, .noRoot hcheck (by simpa using (Bool.and_eq_true_iff.1 hnone).1),
      fun sharing ↦ ?_⟩
    rw [convert, show (c.withSharing sharing).config.check = .ok palette from hcheck]
    dsimp only
    rw [convertWith, assembled, show (c.withSharing sharing).ingest p palette s =
      c.ingest p palette s from rfl]
    dsimp only
    rw [if_pos hnone]
  -- there is something to convert, so that all documents are decided on
  have hh := Host.obeys_of_extensions_eq_nil hnil .decides
  obtain ⟨moved, kept, hd⟩ := exists_concluded hh c.config.layout (ingested hh p palette s)
  -- until then no value is stored, no node gets a style, and without extensions none is replaced
  have hlasting := Converter.lasting_decided (Q := fun said ↦ said.styleRef = none)
    (P := fun context ↦
      context.values = .new c.slug c.config.values palette ∧ context.tree.Unstyled)
    ⟨fun _ _ h ↦ h, fun _ h ↦ h, fun h ht ↦ ⟨h.1, ht h.2⟩⟩
    (Host.keeps_of_extensions_eq_nil hnil _) p.says_unstyled palette s
    ⟨rfl, NodeTree.unstyled_empty⟩
  have hreplacements : (Decided.documents c.host c.config.layout
      (c.loadImages (c.ingest p palette s))).replacements = .empty := SortedMap.ext_get? fun n ↦
    hd.replacements_eq_none (c.about_answers hnil p palette s) n
  have hdepths := hd.of_unmoved (.of_tree (unmoved_computeRenderDepths _))
    (Decided.documents c.host c.config.layout (c.loadImages (c.ingest p palette s))).run.host
  obtain ⟨last, os, assembly, host, houtlined, hattributed, hgives, hassemble⟩ :=
    hdepths.exists_assembled hnil hbare hreplacements
  refine .inr ⟨palette, _, last, os, assembly, host, rfl, ⟨⟨moved, kept, hdepths⟩, rfl,
    hlasting.2.computeRenderDepths, hlasting.1, houtlined, hattributed, hgives, fun sharing ↦ ?_⟩⟩
  rw [assembled]
  exact (if_neg hnone).trans (hassemble _ rfl sharing)

/-- The document of an outline in which nothing is replaced. -/
def Outline.page (d : Dialect) (t : NodeTree) (o : Outline) : List Markup :=
  d.markup t true (o.pieces .empty)

/-- A document as it is written. -/
def DocumentEntry.written (slug : String → String) (e : DocumentEntry) (page : List Markup) :
    DocumentOutput :=
  ⟨e.name, DocumentOutput.stem slug e.name e.root, e.root, Markup.text page⟩

section

variable {targets : List Target} {pages : List (List Markup)}
  (hlength : targets.length = pages.length)

include hlength

theorem DocumentEntry.map_label_written (slug : String → String) :
    ((targets.zip pages).map fun e ↦ e.1.written slug e.2).map
      (fun o ↦ (o.name, o.fileStem, o.root)) =
        targets.map fun e ↦ (e.name, DocumentOutput.stem slug e.name e.root, e.root) := by
  rw [List.map_map]
  calc
    _ = ((targets.zip pages).map Prod.fst).map fun e ↦
          (e.name, DocumentOutput.stem slug e.name e.root, e.root) := by
      rw [List.map_map]
      refine List.map_congr_left fun e _ ↦ ?_
      rw [Function.comp_apply, Function.comp_apply, DocumentEntry.written]
    _ = _ := by rw [List.map_fst_zip hlength.le]

theorem DocumentEntry.map_content_written (slug : String → String) :
    ((targets.zip pages).map fun e ↦ e.1.written slug e.2).map DocumentOutput.content =
      pages.map Markup.text := by
  refine Eq.trans ?_ (congrArg _ (List.map_snd_zip hlength.ge))
  rw [List.map_map, List.map_map]
  exact List.map_congr_left fun e _ ↦ rfl

end

namespace Prepared

variable {c : Converter σ} {p : Provider} {palette : Palette} {s : σ} {d : Decided σ}
  {last : Context} {os : List Outline} {assembly : Assembly} {host : σ}
  (h : Prepared c p palette s d last os assembly host) (sharing : SharingConfig)

include h

/-- The nodes in the output are there. -/
theorem exists_get? {t : NodeTree} (ht : t.bare = d.run.context.tree.bare) {i : NodeId}
    (hi : i ∈ os.flatMap Outline.ids) : ∃ n, t.get? i = some n := by
  obtain ⟨m, hm⟩ := NodeTree.exists_get? (h.outlined.lt_size i hi)
  obtain ⟨n, hn, -⟩ := NodeTree.exists_get?_of_bare ht.symm hm
  exact ⟨n, hn⟩

/-- Every target expands to its outline. -/
theorem map_pieces {β : Type} (f : List Piece → β) (t : NodeTree) :
    ((assembly.resolveAll t (d.run.context.targets.map DocumentEntry.root)).1).map
      (fun R ↦ f R.pieces) = os.map fun o ↦ f (o.pieces .empty) := by
  have hgives := h.gives t
  generalize (assembly.resolveAll t (d.run.context.targets.map DocumentEntry.root)).1 = outputs
    at hgives
  clear h
  induction hgives with
  | nil => rfl
  | cons hR _ ih => rw [List.map_cons, List.map_cons, ih, hR.2.1]

/-- **The documents that are written.** -/
theorem pages_eq (hcheck : c.config.check = .ok palette) : (c.withSharing sharing).pages p s =
    os.map (Outline.page c.target
      (last.share c.target sharing (os.flatMap Outline.ids)).2.tree) := by
  rw [Converter.pages, show (c.withSharing sharing).config.check = .ok palette from hcheck]
  dsimp only
  rw [h.assembled]
  exact h.map_pieces (c.target.markup _ true) _

theorem length_targets (hcheck : c.config.check = .ok palette) :
    d.run.context.targets.length = ((c.withSharing sharing).pages p s).length := by
  have hlength := congrArg List.length h.outlined.ids
  rw [List.length_map, List.length_map] at hlength
  rw [h.pages_eq sharing hcheck, List.length_map, hlength]

omit h in
/-- A piece in the output mentions a node of the output. -/
theorem mem_ids_of_mentioned {o : Outline} (ho : o ∈ os) {q : Piece}
    (hq : q ∈ o.pieces .empty) {i : NodeId} (hi : q.mentioned? = some i) :
    i ∈ os.flatMap Outline.ids :=
  List.mem_flatMap.2 ⟨o, ho, Outline.mem_ids_of_mentioned (fun _ ↦ rfl) hq hi⟩

/-- The text of a document is that of its markup. -/
theorem document_eq {t : NodeTree} (ht : t.bare = d.run.context.tree.bare) {o : Outline}
    (ho : o ∈ os) : c.target.document t (o.pieces .empty) = Markup.text (o.page c.target t) :=
  c.target.document_eq fun q hq i hi ↦ by
    obtain ⟨n, hn⟩ := h.exists_get? ht (mem_ids_of_mentioned ho hq hi)
    exact NodeTree.lt_size_of_get? hn

/-- The texts of the documents are those of their markup. -/
theorem documents_eq {t : NodeTree} (ht : t.bare = d.run.context.tree.bare) :
    (d.run.context.targets.zip (assembly.resolveAll t
      (d.run.context.targets.map DocumentEntry.root)).1).map
        (fun e ↦ e.2.output c.slug c.target t e.1) =
      (d.run.context.targets.zip (os.map (Outline.page c.target t))).map
        fun e ↦ e.1.written c.slug e.2 := by
  have htexts := h.map_pieces (c.target.document t) t
  rw [List.map_zip_eq_zipWith, List.map_zip_eq_zipWith]
  calc
    _ = List.zipWith (DocumentEntry.output c.slug) d.run.context.targets ((assembly.resolveAll t
          (d.run.context.targets.map DocumentEntry.root)).1.map
            fun R ↦ c.target.document t R.pieces) := by
      rw [List.zipWith_map_right]
      rfl
    _ = List.zipWith (DocumentEntry.output c.slug) d.run.context.targets
          (os.map fun o ↦ Markup.text (o.page c.target t)) := by
      rw [htexts, List.map_congr_left fun o ho ↦ h.document_eq ht ho]
    _ = _ := by
      rw [List.zipWith_map_right, List.zipWith_map_right]
      rfl

/-- **What the conversion answers with**, however attributes are shared. -/
theorem converted (hnil : c.host.extensions = []) (hcheck : c.config.check = .ok palette) :
    ∃ o, ((c.withSharing sharing).convert p s).1 = .ok o ∧
      o.documents = (d.run.context.targets.zip ((c.withSharing sharing).pages p s)).map
        (fun e ↦ e.1.written c.slug e.2) ∧
      o.tables = .collect last.values
        (last.share c.target sharing (os.flatMap Outline.ids)).1 ∧
      o.diagnostics = last.diagnostics := by
  have hh := Host.obeys_of_extensions_eq_nil hnil .decides
  have hassembled := h.assembled sharing
  have hbare := (Context.bare_share c.target sharing (os.flatMap Outline.ids) last).trans
    h.attributed.bare
  have hvalues := Context.values_share c.target sharing (os.flatMap Outline.ids) last
  have hdiagnostics := Context.diagnostics_share c.target sharing (os.flatMap Outline.ids) last
  rw [h.pages_eq sharing hcheck]
  generalize last.share c.target sharing (os.flatMap Outline.ids) = shared at *
  obtain ⟨styles, context⟩ := shared
  have hfilled : ∀ e ∈ d.run.context.targets.zip (assembly.resolveAll context.tree
      (d.run.context.targets.map DocumentEntry.root)).1,
      e.2.unresolved = [] ∧ e.2.cycles = [] := fun e he ↦ by
    obtain ⟨k, hk, heq⟩ := List.mem_iff_getElem.1 (List.of_mem_zip he).2
    obtain ⟨hlength, hgives⟩ := List.forall₂_iff_get.1 (h.gives context.tree)
    exact heq ▸ (hgives k (hlength ▸ hk) hk).2.2
  obtain ⟨host', hwrite⟩ := Run.exists_writeTargets hh c.slug c.target hfilled ([], ⟨context, host⟩)
  refine ⟨⟨_, .collect context.values styles, context.diagnostics, c.config.layoutDir,
    c.config.valuesDir, c.config.drawableDir⟩, ?_, h.documents_eq hbare, by rw [hvalues],
    hdiagnostics⟩
  rw [Converter.convert, show (c.withSharing sharing).config.check = .ok palette from hcheck]
  dsimp only
  rw [Converter.convertWith, hassembled]
  dsimp only
  rw [Run.write, show (c.withSharing sharing).host = c.host from rfl,
    show (c.withSharing sharing).slug = c.slug from rfl,
    show (c.withSharing sharing).target = c.target from rfl]
  dsimp only [Assembled.resolutions]
  rw [hwrite]
  rfl

/-- The conversion writes the texts of its pages, and these are those of the outlines. -/
theorem exists_pages (hnil : c.host.extensions = []) (hcheck : c.config.check = .ok palette) :
    ∃ o, (c.convert p s).1 = .ok o ∧
      o.documents.map DocumentOutput.content = (c.pages p s).map Markup.text ∧
      c.pages p s = os.map (Outline.page c.target
        (last.share c.target c.config.sharing (os.flatMap Outline.ids)).2.tree) ∧
      o.tables = .collect last.values
        (last.share c.target c.config.sharing (os.flatMap Outline.ids)).1 := by
  obtain ⟨o, hok, hdocuments, htables, -⟩ := h.converted c.config.sharing hnil hcheck
  refine ⟨o, hok, ?_, h.pages_eq c.config.sharing hcheck, htables⟩
  rw [hdocuments]
  exact DocumentEntry.map_content_written (h.length_targets c.config.sharing hcheck) c.slug

end Prepared

end ViewCompiler
