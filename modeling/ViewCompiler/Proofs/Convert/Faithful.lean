import ViewCompiler.Proofs.Convert.Written
import ViewCompiler.Proofs.Template.Pieces

/-!
# Documents without extensions

The main statement is `Converter.writes_faithfully`: without extensions, and if nothing stops it, a
conversion writes every document with all nodes of its layout and no others but for groups
(`Faithful`). The pieces of a document open and close in pairs; each node is in it once, and the
nearest element around it that is no group is its parent in the layout; each group has at least two
elements directly inside.
-/

namespace ViewCompiler

open NodeTree

variable {σ : Type}

/-- An output, read as elements in each other, is the layout of a document. -/
structure Faithful (t : NodeTree) (R : Resolution) (elements : List (NodeId × List NodeId)) :
    Prop where
  unresolved : R.unresolved = []
  cycles : R.cycles = []
  balanced : Piece.elements? [] R.pieces = some elements
  /-- Every node of the layout is one element, and the others are groups. -/
  nodes : ∃ ids, t.layoutSubtree R.root = .ok ids ∧
    (∀ n ∈ ids, (∃ m, t.get? n = some m ∧ m.excluded = false) ∧
      (elements.map Prod.fst).count n = 1) ∧
    ∀ n ∈ elements.map Prod.fst, n ∉ ids → t.kind? n = some .group ∧
      (elements.map Prod.fst).count n = 1 ∧
      2 ≤ (elements.filter fun e ↦ e.2.head? = some n).length
  enclosing : ∀ e ∈ elements, e.1 ≠ R.root → ∃ p, t.documentParent? e.1 = some p ∧
    e.2.find? (fun n ↦ t.kind? n ≠ some .group) = some p

/-! ### Answers without extensions -/

section

variable {h : Host σ} (hnil : h.extensions = [])

include hnil

theorem Decided.answersOn_proceed (layout : LayoutConfig) (name : String) {xs : List NodeId}
    {d : Decided σ} {l : Answers} (hl : ∀ e ∈ l, e.2 = .proceed) :
    ∀ e ∈ d.answersOn h layout name xs l, e.2 = .proceed := by
  induction xs generalizing d l with
  | nil => exact hl
  | cons x xs ih =>
    have hcons : ∀ e ∈ (x, h.answer .beforeClassify (some x) d.run) :: l,
        e.2 = .proceed := fun e he ↦ by
      rcases List.mem_cons.1 he with rfl | he
      · exact Host.answer_of_nil hnil _ _ _
      · exact hl e he
    rw [answersOn]
    split
    · exact ih hcons
    · exact hcons

theorem Decided.answers_proceed (layout : LayoutConfig) {documents : List DocumentEntry}
    {d : Decided σ} {l : Answers} (hl : ∀ e ∈ l, e.2 = .proceed) :
    ∀ e ∈ Decided.answers h layout documents d l, e.2 = .proceed := by
  induction documents generalizing d l with
  | nil => exact hl
  | cons document r ih =>
    refine ih ?_
    rw [answersIn]
    split
    · exact hl
    · split
      · exact hl
      · exact answersOn_proceed hnil layout _ hl

end

theorem Answers.about_of_forall {l : Answers} (hl : ∀ e ∈ l, e.2 = .proceed) (n : NodeId) :
    l.about n = .proceed := by
  induction l with
  | nil => rfl
  | cons e r ih =>
    rw [about_cons, ih fun e' he' ↦ hl e' (List.mem_cons_of_mem _ he'), hl e List.mem_cons_self]
    exact ite_self _

/-- **Without extensions** nothing is answered. -/
theorem Converter.about_answers {c : Converter σ} (hnil : c.host.extensions = []) (p : Provider)
    (palette : Palette) (s : σ) (n : NodeId) : (c.answers p palette s).about n = .proceed :=
  Answers.about_of_forall (Decided.answers_proceed hnil _ (by simp)) n

/-! ### Targets without extensions -/

namespace Concluded

variable {π : Policy} {h : Host σ} {l : Answers} {moved : List (NodeId × NodeId)} {r kept : Run σ}
  {d : Decided σ} (hd : Concluded π h l moved r kept d) (hproceed : ∀ n, l.about n = .proceed)

include hd hproceed

theorem not_mem_moved_of_proceed (x p : NodeId) : (x, p) ∉ moved :=
  hd.not_mem_moved (by rw [hproceed]; rfl) p

theorem replacements_eq_none (n : NodeId) : d.replacements.get? n = none := by
  rw [hd.replacements_eq, hproceed]
  rfl

/-- A node of a document is emitted in the output of the document. -/
theorem emits_of_proceed {e : DocumentEntry} (he : e ∈ d.run.context.documents) {n : NodeId}
    (hn : Inside d.run.context.tree.layoutRun e.root n) : d.Emits n (some e.root) := by
  have hstay : ∀ i, (l.about i).target? = none := fun i ↦ by rw [hproceed]; rfl
  induction hn with
  | refl => exact hd.emits_root (List.mem_map_of_mem he) (hstay _)
  | @tail q n hq hn ih =>
    exact hd.emits_run (hd.mem_asked he hq (List.ne_nil_of_mem hn)) (by rw [hproceed]; rfl) hn
      (hstay n) ih

/-- **The targets are the documents.** -/
theorem targets_eq : d.run.context.targets = d.run.context.documents := by
  have ha := hd.answered.arranged
  have hall : ∀ e ∈ d.run.context.documents,
      ((d.run.context.tree.get? e.root).any fun n ↦ n.renderParent.isNone) = true := fun e he ↦ by
    have htarget := (hd.emits_of_proceed hproceed he .refl).1 e.root rfl
    refine any_isNone_iff.2 ⟨hd.lt_size_target htarget, ?_⟩
    refine Option.eq_none_iff_forall_ne_some.2 fun p hp ↦ ?_
    exact hd.outermost htarget p (mem_order.2 ((ha.mem_iff p e.root).2 hp))
  have hnil : ∀ {x}, d.run.context.tree.kind? x = some .host → d.run.context.tree.order x = [] :=
    fun {x} hx ↦ List.eq_nil_iff_forall_not_mem.2 fun n hn ↦ by
      cases ha.explained n x ((ha.mem_iff x n).1 (mem_order.1 hn)) with
      | moved mem => exact hd.not_mem_moved_of_proceed hproceed n x mem
      | settled q mem _ _ outer =>
        rcases outer with rfl | ⟨hgroup, -⟩
        · obtain ⟨k, hk, -, hne⟩ := ha.settles x mem
          exact hne (Option.some.inj (hk.symm.trans hx))
        · exact absurd (hgroup.symm.trans hx) (by simp)
  rw [Context.targets]
  dsimp only
  rw [List.filter_eq_self.2 hall]
  refine (congrArg _ (congrArg _ (List.filter_eq_nil_iff.2 fun e he hused ↦ ?_))).trans
    (List.append_nil _)
  exact match_renderOrder_iff.1 hused
    (hnil (hd.answered.hosts e.1 e.2 (SortedMap.mem_entries_iff.1 he)))

end Concluded

/-! ### Outputs -/

namespace Converted

variable {π : Policy} {c : Converter σ} {p : Provider} {palette : Palette} {s : σ}
  {moved : List (NodeId × NodeId)} {kept : Run σ} {d : Decided σ} {a : Assembled} {r : Run σ}
  {os : List Outline} {o : ConversionOutput} (h : Converted π c p palette s moved kept d a r os o)
  (hproceed : ∀ n, (c.answers p palette s).about n = .proceed)

include h hproceed

/-- **Every output is the layout of its document.** -/
theorem faithful {o : Outline} (ho : o ∈ os) {R : Resolution} (hroot : R.root = o.id)
    (hR : R.Gives (o.pieces d.replacements)) : Faithful r.context.tree R (o.placed []) := by
  obtain ⟨hpieces, hunresolved, hcycles⟩ := hR
  have hu := h.written.unmoved.tree
  have ha := h.concluded.answered.arranged.of_unmoved hu
  have hrun := hu.extended.layoutRun_eq
  have hmoved := h.concluded.not_mem_moved_of_proceed hproceed
  have hfollows := (h.written.outlined.of_unmoved hu).follows o ho
  -- the document of the output
  have hid : o.id ∈ d.run.context.documents.map DocumentEntry.root := by
    rw [← h.concluded.targets_eq hproceed, ← h.written.targets, ← h.written.outlined.ids]
    exact List.mem_map_of_mem ho
  have hkind := hu.extended.kind?_eq (h.concluded.kind_root hid)
  obtain ⟨e, he, heq⟩ := List.mem_map.1 hid
  obtain ⟨ids, hids, hmem⟩ := h.exists_layoutSubtree (h.written.unmoved.documents ▸ he)
  rw [heq] at hids hmem
  -- the nodes around each node
  have hlink : ∀ p n, n ∈ r.context.tree.order p → r.context.tree.renderParent? n = some p :=
    fun p n hn ↦ (ha.mem_iff p n).1 (mem_order.1 hn)
  have hnone : r.context.tree.renderParent? o.id = none := by
    refine ha.renderParent_eq_none (fun p ↦ hmoved o.id p) fun p hp _ ↦ ?_
    exact absurd ((ha.documentParent?_of_isTop hkind rfl).symm.trans hp) (by simp)
  have hup : Upward r.context.tree.renderParent? o.id [o.id] := .last hnone
  have hin : ∀ n, n ∈ o.ids ↔ Inside r.context.tree.order o.id n := fun n ↦
    Outline.mem_ids_iff hfollows
  have hcount : ∀ n ∈ o.ids, ((o.placed []).map Prod.fst).count n = 1 := fun n hn ↦ by
    rw [o.map_fst_placed]
    exact List.count_eq_one_of_mem (h.nodup_ids ho) hn
  refine ⟨hunresolved, hcycles, ?_, ⟨ids, hroot ▸ hids, fun n hn ↦ ⟨?_, ?_⟩,
    fun n hn hnot ↦ ?_⟩, fun x hx hne ↦ ?_⟩
  · have hread := o.elements?_pieces (h.concluded.replacements_eq_none hproceed) [] []
    rw [List.append_nil] at hread
    rw [hpieces, hread]
    simp [Piece.elements?]
  · rw [hmem, ← hrun] at hn
    obtain ⟨m, hm⟩ := exists_get? (ha.forest.lt_size_of_inside (lt_size_of_kind? hkind) hn)
    exact ⟨m, hm, ha.forest.not_excluded (ha.excluded_of_isTop hkind rfl) hn _
      (links?_of_get? hm)⟩
  · refine hcount n ((h.mem_ids_iff ho ?_).2 (congrArg some heq))
    exact h.concluded.emits_of_proceed hproceed he (heq ▸ (hmem n).1 hn)
  · rw [o.map_fst_placed] at hn
    have hgroup := ((ha.inside_origin hmoved hkind ((hin n).1 hn)).resolve_left fun hlayout ↦
      hnot ((hmem n).2 (hrun ▸ hlayout))).1
    refine ⟨hgroup, hcount n hn, ?_⟩
    have hmany := (ha.group n hgroup).2.1
    rw [← (perm_order _ n).length_eq] at hmany
    have hdirect := Outline.elementsIn_placed hfollows (h.nodup_ids ho) [] n
    rw [if_pos hn, if_neg (by simp), List.nil_append, Piece.elementsIn] at hdirect
    rwa [← List.length_map Prod.fst, hdirect]
  · have hmem' : x.1 ∈ o.ids := o.map_fst_placed [] ▸ List.mem_map_of_mem hx
    rcases Relation.ReflTransGen.cases_tail ((hin x.1).1 hmem') with heq' | ⟨q, -, hq⟩
    · exact absurd (heq'.trans hroot.symm) hne
    · exact ha.find?_upward hmoved (Outline.upward_of_mem_placed hlink hfollows hup hx)
        (hlink q x.1 hq)

/-- **All outputs are**, each with the nodes of its own document. -/
theorem all_faithful : List.Forall₂ (Faithful r.context.tree) (a.resolutions r.context.tree)
      (os.map (Outline.placed [])) ∧
    ((os.map (Outline.placed [])).flatMap fun elements ↦ elements.map Prod.fst).Nodup := by
  constructor
  · obtain ⟨hlength, hgives⟩ := List.forall₂_iff_get.1 h.written.gives
    rw [List.forall₂_map_right_iff]
    refine List.forall₂_iff_get.2 ⟨hlength.symm, fun k hk hk' ↦ ?_⟩
    obtain ⟨hroot, hpieces⟩ := hgives k hk' hk
    exact h.faithful hproceed (List.get_mem os _) hroot hpieces
  · have hids : (fun o : Outline ↦ (o.placed []).map Prod.fst) = Outline.ids :=
      funext fun o ↦ o.map_fst_placed []
    rw [List.flatMap_map, hids]
    exact h.written.outlined.nodup

end Converted

/-- **Without extensions a conversion writes the layout of every document**, and fails only if the
configuration is wrong or there is no document. -/
theorem Converter.writes_faithfully (c : Converter σ) (p : Provider) (s : σ)
    (hextensions : c.host.extensions = []) (hruns : ∀ s, (c.host.cancelled s).1 = false) :
    (∃ e, c.config.check = .error e ∧ (c.convert p s).1 = .error (.config e)) ∨
      ∃ palette, c.config.check = .ok palette ∧
        (((c.ingest p palette s).context.documents = [] ∧ (c.convert p s).1 = .error .noRoot) ∨
          ∃ o a r elements, (c.convert p s).1 = .ok o ∧ c.assembled p palette s = (.ok a, r) ∧
            o.documents = (a.targets.zip (a.resolutions r.context.tree)).map (fun e ↦
              e.2.output c.slug c.target r.context.tree e.1) ∧
            a.targets = (c.ingest p palette s).context.documents ∧
            List.Forall₂ (Faithful r.context.tree) (a.resolutions r.context.tree) elements ∧
            (elements.flatMap fun es ↦ es.map Prod.fst).Nodup) := by
  cases hcheck : c.config.check with
  | error e => exact .inl ⟨e, rfl, by simp only [convert, hcheck]⟩
  | ok palette =>
    refine .inr ⟨palette, rfl, ?_⟩
    have hhost := Host.obeys_of_extensions_eq_nil hextensions .decides
    refine (Converter.exists_converted hhost p s hcheck).imp id ?_
    rintro ⟨moved, kept, d, a, r, os, o, h⟩
    have hproceed := Converter.about_answers hextensions p palette s
    obtain ⟨hfaithful, hnodup⟩ := h.all_faithful hproceed
    refine ⟨o, a, r, _, h.convert, h.assembled, h.documents, ?_, hfaithful, hnodup⟩
    rw [h.written.targets, h.concluded.targets_eq hproceed, h.documents_eq hruns]

/-- A document with two elements in its root. -/
def Provider.twoParagraphs : Provider :=
  let element (tag : String) (children : List Handle) : ProvidedElement :=
    ⟨.ok { BoxMeasure.empty with tag := tag }, children⟩
  .ofElements [⟨"page", some 0⟩] #[element "div" [1, 2], element "p" [], element "p" []]

/-- A conversion without extensions. -/
def Converter.plain : Converter Unit :=
  .ofConfig { ConversionConfig.default with palette := .empty } Text.asciiSlug

/-- The document is written. -/
theorem Converter.writes_faithfully_twoParagraphs :
    plain.host.extensions = [] ∧ (∀ s, (plain.host.cancelled s).1 = false) ∧
      ∃ o a r elements, (plain.convert .twoParagraphs ()).1 = .ok o ∧
        plain.assembled .twoParagraphs ⟨[]⟩ () = (.ok a, r) ∧
        List.Forall₂ (Faithful r.context.tree) (a.resolutions r.context.tree) elements := by
  have hcheck : plain.config.check = .ok ⟨[]⟩ := rfl
  have hdocuments : (plain.ingest .twoParagraphs ⟨[]⟩ ()).context.documents ≠ [] := by decide
  refine ⟨rfl, fun _ ↦ rfl, ?_⟩
  rcases writes_faithfully plain .twoParagraphs () rfl fun _ ↦ rfl with
    ⟨e, he, -⟩ | ⟨palette, hpalette, hall⟩
  · exact absurd (hcheck.symm.trans he) (by simp)
  · obtain rfl := Except.ok.inj (hcheck.symm.trans hpalette)
    rcases hall with ⟨hnone, -⟩ | ⟨o, a, r, elements, hok, hassembled, -, -, hfaithful, -⟩
    · exact absurd hnone hdocuments
    · exact ⟨o, a, r, elements, hok, hassembled, hfaithful⟩

end ViewCompiler
