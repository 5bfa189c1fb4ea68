import ViewCompiler.Proofs.Convert.Emission
import ViewCompiler.Proofs.Convert.Styles
import ViewCompiler.Proofs.Template.Resolution

/-!
# What a conversion writes

The documents on which has been decided are assembled without an error
(`Concluded.exists_assemble`), and each target expands to the outline of the nodes that render in it
(`Written`). Nothing is reported on the way: every node is one deeper than what it renders in
(`Concluded.graded`), so the levels go from the inside to the outside and no saved order is
rejected. Writing the targets reports no slot (`Run.exists_writeTargets`).
-/

namespace ViewCompiler

open NodeTree

variable {σ : Type}

/-- One outline for each target, of the nodes that render in it. -/
structure Outlined (t : NodeTree) (targets : List Target) (os : List Outline) : Prop where
  ids : os.map Outline.id = targets.map DocumentEntry.root
  follows : ∀ o ∈ os, o.Follows t.order
  nodup : (os.flatMap Outline.ids).Nodup
  lt_size : ∀ i ∈ os.flatMap Outline.ids, i < t.size
  closed : ∀ i ∈ os.flatMap Outline.ids, ∀ c ∈ t.order i, c ∈ os.flatMap Outline.ids

theorem Outlined.of_unmoved {t t' : NodeTree} {targets : List Target} {os : List Outline}
    (h : Outlined t targets os) (hu : NodeTree.Unmoved t t') : Outlined t' targets os := by
  have horder : t'.order = t.order := funext hu.order
  exact ⟨h.ids, horder ▸ h.follows, h.nodup, fun i hi ↦ Nat.lt_of_lt_of_le (h.lt_size i hi)
    hu.extended.size_le, horder ▸ h.closed⟩

/-- The nodes in the output of the targets. -/
theorem Outlined.renderedBelow {t : NodeTree} {targets : List Target} {os : List Outline}
    (h : Outlined t targets os) : t.renderedBelow [] targets = .ok (os.flatMap Outline.ids) :=
  renderedBelow_eq h.follows h.ids h.lt_size (by simpa using h.nodup)

/-- The decisions, with the depths in the output. -/
def Decided.withDepths (d : Decided σ) : Decided σ :=
  d.modify fun c ↦ { c with tree := c.tree.computeRenderDepths }

/-- What has been written: every target expands to its outline. -/
structure Written (d : Decided σ) (a : Assembled) (c : Context) (os : List Outline) : Prop where
  unmoved : Context.Unmoved d.run.context c
  targets : a.targets = d.run.context.targets
  outlined : Outlined d.run.context.tree a.targets os
  gives : List.Forall₂ (fun o (R : Resolution) ↦ R.root = o.id ∧ R.Gives (o.pieces d.replacements))
    os (a.resolutions c.tree)
  /-- After the decisions only attributes and styles are given, and nothing is reported. -/
  bare : c.tree.bare = d.run.context.tree.bare
  diagnostics : c.diagnostics = d.run.context.diagnostics

namespace Written

variable {d : Decided σ} {a : Assembled} {c : Context} {os : List Outline} (h : Written d a c os)

include h

theorem roots : (a.resolutions c.tree).map Resolution.root =
    d.run.context.targets.map DocumentEntry.root := by
  rw [← h.targets, ← h.outlined.ids]
  have hgives := h.gives
  generalize a.resolutions c.tree = outputs at hgives
  clear h
  induction hgives with
  | nil => rfl
  | cons hR _ ih => rw [List.map_cons, List.map_cons, ih, hR.1]

theorem exists_outline {R : Resolution} (hR : R ∈ a.resolutions c.tree) :
    ∃ o ∈ os, R.root = o.id ∧ R.Gives (o.pieces d.replacements) := by
  obtain ⟨k, hk, rfl⟩ := List.mem_iff_getElem.1 hR
  obtain ⟨hlength, hgives⟩ := List.forall₂_iff_get.1 h.gives
  exact ⟨_, List.getElem_mem (hlength ▸ hk), hgives k (hlength ▸ hk) hk⟩

theorem filled_resolution {R : Resolution} (hR : R ∈ a.resolutions c.tree) :
    R.unresolved = [] ∧ R.cycles = [] := by
  obtain ⟨o, -, -, -, hfilled⟩ := h.exists_outline hR
  exact hfilled

end Written

namespace Concluded

variable {π : Policy} {h : Host σ} {l : Answers} {moved : List (NodeId × NodeId)} {r kept : Run σ}
  {d : Decided σ}

theorem of_unmoved (hd : Concluded π h l moved r kept d) {c : Context}
    (hu : Context.Unmoved d.run.context c) (s : σ) :
    Concluded π h l moved r kept { d with run := ⟨c, s⟩ } :=
  { hd with answered := hd.answered.of_unmoved hu s }

/-- The nodes that have been asked about belong to the layout. -/
theorem kind_asked (hd : Concluded π h l moved r kept d) {x : NodeId} (hx : x ∈ l.map Prod.fst) :
    ∃ k, d.run.context.tree.kind? x = some k ∧ k ≠ .group ∧ k ≠ .host := by
  obtain ⟨e, he, hin, -⟩ := (hd.asked x).1 hx
  obtain ⟨k, hk, hne⟩ :=
    hd.ingested.sown.forest.kind?_of_inside (hd.ingested.roots e he) hin
  exact ⟨k, hd.answered.extended.kind?_eq hk, hne⟩

/-- **Replaced nodes have nothing inside**, and there are no slots in their texts. -/
theorem textual (hd : Concluded π h l moved r kept d) :
    Textual d.run.context.tree d.replacements := by
  have hreplaced : ∀ {i s}, d.replacements.get? i = some s →
      i ∈ l.map Prod.fst ∧ l.about i = .replace s := fun {i s} hi ↦ by
    rw [hd.answered.replacements] at hi
    split at hi
    · exact ⟨‹_›, HookAction.replacement?_eq_some_iff.1 hi⟩
    · exact absurd hi (by simp)
  have hallowed : ∀ {i a}, i ∈ l.map Prod.fst → l.about i = a → π.allows d.run.context a :=
    fun hi ha ↦ ha ▸ hd.answered.allowed _ hi
  refine ⟨fun i s hi ↦ ?_, fun i s hi ↦ ?_⟩
  · obtain ⟨hasked, hanswer⟩ := hreplaced hi
    obtain ⟨k, hk, hgroup, hhost⟩ := hd.kind_asked hasked
    have hnil := hd.answered.arranged.renderMembers_eq_nil (x := i)
      (fun hmem ↦ by simpa [hanswer, HookAction.replacement?] using (mem_settledIn.1 hmem).2)
      (by simpa [hk] using hgroup) fun c hc ↦ by
        -- where a text is allowed nodes are moved to hosts only
        obtain ⟨hasked', htarget⟩ := hd.answered.answered c i hc
        obtain ⟨name, hname⟩ := π.hosts (hallowed hasked hanswer)
          (hallowed hasked' (HookAction.target?_eq_some_iff.1 htarget))
        exact hhost (Option.some.inj (hk.symm.trans (hd.answered.hosts name i hname)))
    exact List.eq_nil_iff_forall_not_mem.2 fun c hc ↦ by
      rw [mem_order, hnil] at hc
      exact List.not_mem_nil hc
  · obtain ⟨hasked, hanswer⟩ := hreplaced hi
    exact π.slots (hallowed hasked hanswer)

theorem nested (hd : Concluded π h l moved r kept d) : Nested d.run.context.tree :=
  ⟨hd.answered.arranged.mem_iff, hd.answered.arranged.nodup⟩

/-- Every target has an outline, and they have no number in common. -/
theorem exists_outlined (hd : Concluded π h l moved r kept d) :
    ∃ os, Outlined d.run.context.tree d.run.context.targets os := by
  have ha := hd.answered.arranged
  obtain ⟨os, hids, hos⟩ := Outline.exists_list fun i hi ↦
    exists_outline_of_outermost ha.eq_of_mem_order hd.nested.nodup_order ha.lt_size_of_mem_order
      (hd.outermost (x := i) hi)
  have hroot : ∀ o ∈ os, o.id ∈ d.run.context.targets.map DocumentEntry.root := fun o ho ↦
    hids ▸ List.mem_map_of_mem ho
  refine ⟨os, hids, fun o ho ↦ (hos o ho).1, nodup_flatMap_ids ha.eq_of_mem_order
    (fun o ho ↦ (hos o ho).1) (fun o ho ↦ (hos o ho).2) (hids ▸ hd.nodup_targets)
    fun o ho ↦ hd.outermost (hroot o ho), fun i hi ↦ ?_, fun i hi c hc ↦ ?_⟩
  all_goals
    obtain ⟨o, ho, hmem⟩ := List.mem_flatMap.1 hi
    have hin := (Outline.mem_ids_iff (hos o ho).1).1 hmem
  · exact ha.lt_size_of_inside (hd.lt_size_target (hroot o ho)) hin
  · exact List.mem_flatMap.2 ⟨o, ho, (Outline.mem_ids_iff (hos o ho).1).2 (hin.tail hc)⟩

section

variable {targets : List Target} {os : List Outline}

/-- **The fragments are assembled**, and every target expands to its outline. Nothing is reported if
every node is one deeper than what it renders in. -/
theorem exists_fragments (hd : Concluded π h l moved r kept d)
    (ho : Outlined d.run.context.tree targets os) :
    ∃ a c, d.assemble targets = .ok (a, d.modify fun _ ↦ c) ∧
      (d.run.context.tree.Graded (os.flatMap Outline.ids) → c = d.run.context) ∧ ∀ t,
        List.Forall₂ (fun o (R : Resolution) ↦ R.root = o.id ∧ R.Gives (o.pieces d.replacements))
          os (a.resolveAll t (targets.map DocumentEntry.root)).1 := by
  obtain ⟨a, c, hok, hsilent, hcomplete⟩ := Decided.exists_assemble ho.renderedBelow hd.nested
    hd.textual (fun e he ↦ (hd.answered.saved e he).sublist_order) ho.lt_size ho.closed
  refine ⟨a, c, hok, hsilent, fun t ↦ ?_⟩
  rw [Assembly.resolveAll, ← ho.ids]
  dsimp only
  rw [List.map_map, List.forall₂_map_right_iff, List.forall₂_same]
  refine fun o hmem ↦ ⟨rfl, hcomplete.resolve_gives hd.textual (ho.follows o hmem)
    (fun i hi ↦ List.mem_flatMap.2 ⟨o, hmem, hi⟩) ((List.nodup_flatMap.1 ho.nodup).1 o hmem)⟩

end

theorem of_withDepths (hd : Concluded π h l moved r kept d) :
    Concluded π h l moved r kept d.withDepths :=
  hd.of_unmoved (.of_tree (unmoved_computeRenderDepths _)) d.run.host

/-- **Every node in the output is one deeper than what it renders in**, once the depths are
known. -/
theorem graded (hd : Concluded π h l moved r kept d) {os : List Outline}
    (ho : Outlined d.withDepths.run.context.tree d.withDepths.run.context.targets os) :
    d.withDepths.run.context.tree.Graded (os.flatMap Outline.ids) := fun p hp c hc ↦ by
  obtain ⟨o, hmem, hp⟩ := List.mem_flatMap.1 hp
  have hu : NodeTree.Unmoved d.run.context.tree d.withDepths.run.context.tree :=
    unmoved_computeRenderDepths _
  have hroot : o.id ∈ d.withDepths.run.context.targets.map DocumentEntry.root :=
    ho.ids ▸ List.mem_map_of_mem hmem
  have hnone : d.run.context.tree.renderParent? o.id = none :=
    Option.eq_none_iff_forall_ne_some.2 fun q hq ↦ hd.of_withDepths.outermost hroot q <| by
      rw [hu.order]
      exact hd.nested.mem_order_iff.2 hq
  have horder : d.withDepths.run.context.tree.order = d.run.context.tree.order := funext hu.order
  exact graded_computeRenderDepths hd.nested.mem_iff (horder ▸ ho.follows o hmem)
    (hu.size_eq ▸ ho.lt_size o.id (List.mem_flatMap.2 ⟨o, hmem, o.id_mem_ids⟩)) hnone p hp c hc

/-- **The conversion assembles its documents.** -/
theorem exists_assemble {c : Converter σ} (hh : c.host.Obeys π)
    (hd : Concluded π c.host l moved r kept d) :
    ∃ a r' os, c.assemble d = (.ok a, r') ∧ Concluded π c.host l moved r kept d.withDepths ∧
      Written d.withDepths a r'.context os := by
  have hd₁ := hd.of_withDepths
  obtain ⟨os, ho⟩ := hd₁.exists_outlined
  have hgraded := hd.graded ho
  rw [Converter.assemble, ← Decided.withDepths]
  dsimp only
  generalize d.withDepths = d₁ at hd₁ ho hgraded ⊢
  have hrendered : d₁.renderedNodes d₁.run.context.targets =
      .ok ((os.flatMap Outline.ids).filter fun id ↦ !d₁.replacements.contains id) := by
    rw [Decided.renderedNodes, ho.renderedBelow]
    rfl
  rw [hrendered]
  dsimp only
  generalize (os.flatMap Outline.ids).filter (fun id ↦ !d₁.replacements.contains id) = rendered
  -- the attributes
  have hu : Context.Unmoved d₁.run.context
      (rendered.foldl (Context.finalize c.target) d₁.run.context) :=
    .foldl (fun c id ↦ Context.unmoved_finalize c _ id) rendered _
  have hattributes := Context.bare_finalizeAll c.target rendered d₁.run.context
  obtain ⟨s, hnotify⟩ := Run.exists_notify hh .beforeResourcePass (by simp) none none
    (d₁.modify fun context ↦ rendered.foldl (Context.finalize c.target) context).run
  -- the fragments
  obtain ⟨a, c', hok, hsilent, hgives⟩ :=
    (hd₁.of_unmoved hu s).exists_fragments (ho.of_unmoved hu.tree)
  have hlast : c' = rendered.foldl (Context.finalize c.target) d₁.run.context :=
    hsilent (hgraded.of_bare hattributes.1.symm)
  rw [← hlast] at hattributes hu
  have hshare := Context.unmoved_share c' c.target c.config.sharing rendered
  rw [hnotify]
  refine ⟨⟨d₁.run.context.targets, a, (c'.share c.target c.config.sharing rendered).1⟩,
    ⟨(c'.share c.target c.config.sharing rendered).2, s⟩, os, ?_, hd₁,
    ⟨hu.trans hshare, rfl, ho, hgives _,
      (Context.bare_share c.target c.config.sharing rendered c').trans hattributes.1,
      (Context.diagnostics_share c.target c.config.sharing rendered c').trans hattributes.2⟩⟩
  simp only [Decided.modify, Run.modify] at hok ⊢
  rw [hok]

end Concluded

/-! ### Writing -/

/-- A document with its text. -/
def DocumentEntry.output (slug : String → String) (e : DocumentEntry) (text : String) :
    DocumentOutput :=
  ⟨e.name, DocumentOutput.stem slug e.name e.root, e.root, text⟩

/-- The text of a target, as it is without extensions. -/
def Resolution.output (slug : String → String) (d : Dialect) (t : NodeTree) (target : Target)
    (R : Resolution) : DocumentOutput :=
  ⟨target.name, DocumentOutput.stem slug target.name target.root, target.root,
    d.document t R.pieces⟩

/-- **Targets without open slots are written** as they are, and nothing is reported. -/
theorem Run.exists_writeTargets {π : Policy} {h : Host σ} (hh : h.Obeys π)
    (slug : String → String) (d : Dialect) {l : List (Target × Resolution)}
    (hl : ∀ e ∈ l, e.2.unresolved = [] ∧ e.2.cycles = []) (s : List DocumentOutput × Run σ) :
    ∃ host, l.foldl (writeTarget h slug d) s =
      (s.1 ++ l.map (fun e ↦ e.2.output slug d s.2.context.tree e.1), ⟨s.2.context, host⟩) := by
  induction l generalizing s with
  | nil => exact ⟨s.2.host, by simp⟩
  | cons e l ih =>
    obtain ⟨hunresolved, hcycles⟩ := hl e List.mem_cons_self
    obtain ⟨host, hdispatch⟩ :=
      exists_dispatch_of_ne hh .afterFinalize (by simp) (some e.1.root) s.2
    have hstep : writeTarget h slug d s e =
        (s.1 ++ [e.2.output slug d s.2.context.tree e.1], ⟨s.2.context, host⟩) := by
      simp only [writeTarget, Context.reportResolution, hunresolved, hcycles, List.foldl_nil,
        modify, hdispatch, ignore, if_true]
      rfl
    obtain ⟨host', hrest⟩ := ih (fun e he ↦ hl e (List.mem_cons_of_mem _ he))
      (s.1 ++ [e.2.output slug d s.2.context.tree e.1], ⟨s.2.context, host⟩)
    refine ⟨host', ?_⟩
    rw [List.foldl_cons, hstep, hrest]
    simp

/-! ### The conversion -/

theorem Converter.unmoved_loadImages (c : Converter σ) (r : Run σ) :
    Context.Unmoved r.context (c.loadImages r).context := by
  rw [loadImages]
  split
  · exact Context.unmoved_loadImages _ _
  · exact .refl _

/-- What comes of a conversion that gets as far as its targets. -/
structure Converted (π : Policy) (c : Converter σ) (p : Provider) (palette : Palette) (s : σ)
    (moved : List (NodeId × NodeId)) (kept : Run σ) (d : Decided σ) (a : Assembled) (r : Run σ)
    (os : List Outline) (o : ConversionOutput) : Prop where
  concluded : Concluded π c.host (c.answers p palette s) moved
    (c.loadImages (c.ingest p palette s)) kept d
  decided : d = (Decided.documents c.host c.config.layout
    (c.loadImages (c.ingest p palette s))).withDepths
  written : Written d a r.context os
  assembled : c.assembled p palette s = (.ok a, r)
  convert : (c.convert p s).1 = .ok o
  documents : o.documents = (a.targets.zip (a.resolutions r.context.tree)).map fun e ↦
    e.2.output c.slug c.target r.context.tree e.1
  diagnostics : o.diagnostics = r.context.diagnostics

namespace Converted

variable {π : Policy} {c : Converter σ} {p : Provider} {palette : Palette} {s : σ}
  {moved : List (NodeId × NodeId)} {kept : Run σ} {d : Decided σ} {a : Assembled} {r : Run σ}
  {os : List Outline} {o : ConversionOutput} (h : Converted π c p palette s moved kept d a r os o)

include h

theorem exists_layoutSubtree {e : DocumentEntry} (he : e ∈ r.context.documents) :
    ∃ ids, r.context.tree.layoutSubtree e.root = .ok ids ∧
      ∀ n, n ∈ ids ↔ Inside d.run.context.tree.layoutRun e.root n := by
  have hext := h.written.unmoved.tree.extended
  have hforest := h.concluded.answered.arranged.forest
  rw [h.written.unmoved.documents] at he
  have hroot := h.concluded.kind_root (List.mem_map_of_mem (f := DocumentEntry.root) he)
  have hlt := lt_size_of_kind? hroot
  obtain ⟨o, hid, ho⟩ := hforest.forest.exists_outline e.root
  refine ⟨o.ids, ?_, fun n ↦ hid ▸ Outline.mem_ids_iff ho⟩
  rw [← hid] at hlt ⊢
  refine (hext.layoutForest hforest).layoutSubtree_eq ?_ (Nat.lt_of_lt_of_le hlt hext.size_le)
  rwa [hext.layoutRun_eq]

theorem nodup_ids {o : Outline} (ho : o ∈ os) : o.ids.Nodup :=
  (List.nodup_flatMap.1 h.written.outlined.nodup).1 o ho

/-- Outlines are those of targets. -/
theorem mem_ids_iff {o : Outline} (ho : o ∈ os) {n : NodeId} {home : Option NodeId}
    (hn : d.Emits n home) : n ∈ o.ids ↔ home = some o.id := by
  rw [Outline.mem_ids_iff (h.written.outlined.follows o ho)]
  refine hn.2 o.id ?_
  rw [← h.written.targets, ← h.written.outlined.ids]
  exact List.mem_map_of_mem ho

/-- Nothing is reported about a slot. -/
theorem filled : ∀ e ∈ o.diagnostics, e.isAboutSlot = false := by
  rw [h.diagnostics]
  exact h.written.unmoved.filled h.concluded.answered.filled

/-- No document is left out if the conversion is never to stop. -/
theorem documents_eq (hruns : ∀ s, (c.host.cancelled s).1 = false) :
    d.run.context.documents = (c.ingest p palette s).context.documents := by
  rw [h.concluded.answered.documents, h.concluded.all hruns]
  exact (c.unmoved_loadImages _).documents

end Converted

/-- **What decisions can be made on**: the documents that have been made into nodes. -/
theorem Converter.ingested {π : Policy} {c : Converter σ} (hh : c.host.Obeys π) (p : Provider)
    (palette : Palette) (s : σ) : (c.loadImages (c.ingest p palette s)).context.Ingested :=
  (Run.ingested_ingest hh p (.new _)).of_unmoved (c.unmoved_loadImages _)

/-- Nothing has been made into nodes, and that is not because the conversion was to stop. -/
def Converter.IsEmpty (c : Converter σ) (p : Provider) (palette : Palette) (s : σ) : Prop :=
  (c.ingest p palette s).context.documents = [] ∧
    Diagnostic.count .cancelled (c.ingest p palette s).context.diagnostics < p.documents.length

theorem Converter.assembled_of_isEmpty {c : Converter σ} {p : Provider} {palette : Palette} {s : σ}
    (h : c.IsEmpty p palette s) :
    c.assembled p palette s = (.error .noRoot, c.ingest p palette s) := by
  simp [assembled, h.1, h.2]

theorem Converter.assembled_of_not_isEmpty {c : Converter σ} {p : Provider} {palette : Palette}
    {s : σ} (h : ¬c.IsEmpty p palette s) : c.assembled p palette s = c.assemble
      (Decided.documents c.host c.config.layout (c.loadImages (c.ingest p palette s))) := by
  rw [assembled, if_neg fun hnone ↦ h ?_]
  simpa [IsEmpty] using hnone

/-- **A conversion succeeds**, unless it is empty. -/
theorem Converter.exists_converted_of_not_isEmpty {π : Policy} {c : Converter σ}
    (hh : c.host.Obeys π) {p : Provider} {s : σ} {palette : Palette}
    (hcheck : c.config.check = .ok palette) (hsome : ¬c.IsEmpty p palette s) :
    ∃ moved kept d a r os o, Converted π c p palette s moved kept d a r os o := by
  obtain ⟨moved, kept, hd⟩ := exists_concluded hh c.config.layout (ingested hh p palette s)
  obtain ⟨a, r, os, hassemble, hd', hw⟩ := hd.exists_assemble hh
  have hassembled := (assembled_of_not_isEmpty hsome).trans hassemble
  obtain ⟨host, hwrite⟩ := Run.exists_writeTargets hh c.slug c.target
    (l := a.targets.zip (a.resolutions r.context.tree))
    (fun e he ↦ hw.filled_resolution (List.of_mem_zip he).2) ([], r)
  refine ⟨moved, kept, _, a, r, os,
    ⟨(a.targets.zip (a.resolutions r.context.tree)).map fun e ↦
      e.2.output c.slug c.target r.context.tree e.1, .collect r.context.values a.styles,
      r.context.diagnostics, c.config.layoutDir, c.config.valuesDir, c.config.drawableDir⟩,
    hd', rfl, hw, hassembled, ?_, rfl, rfl⟩
  simp only [convert, hcheck, convertWith, hassembled, Run.write, hwrite, List.nil_append]

/-- **A conversion succeeds**, unless no document has been made into nodes. -/
theorem Converter.exists_converted {π : Policy} {c : Converter σ} (hh : c.host.Obeys π)
    (p : Provider) (s : σ) {palette : Palette} (hcheck : c.config.check = .ok palette) :
    ((c.ingest p palette s).context.documents = [] ∧ (c.convert p s).1 = .error .noRoot) ∨
      ∃ moved kept d a r os o, Converted π c p palette s moved kept d a r os o := by
  by_cases hnone : c.IsEmpty p palette s
  · refine .inl ⟨hnone.1, ?_⟩
    simp only [convert, hcheck, convertWith, assembled_of_isEmpty hnone]
  · exact .inr (exists_converted_of_not_isEmpty hh hcheck hnone)

end ViewCompiler
