import ViewCompiler.Proofs.Convert.CarriedOut

/-!
# Where moved nodes end up

An extension may move a node to any number: to the node itself or one inside it, to a node of
another document, to one that is written nowhere, or to none. The main statement is
`Converter.accounts_for_moves`: a conversion with extensions that only move nodes succeeds as soon
as a document has been made into nodes, fills every slot, and accounts for all nodes of the layout
(`AccountedFor`). Each is emitted once, unless its way leads round in a loop or to a node that is
written nowhere (`Lost`), and then not at all. A move that is not carried out is reported.

## Shape decisions

* The way from a node is read off the answers of the extensions and the layout (`Leads`), not off
  the output: a node that has been moved leads to where it has been moved, any other member of a run
  to the node whose run it is in, and so does a group.
* A loop is not reported, and neither is a move to a node that is written nowhere. `Lost` says which
  nodes are lost in this way; nothing is said of reports about them.
* Links between finitely many nodes lead round in a loop or to an end (`exists_loop_or_end`). So it
  is enough to know in which nodes a way can end (`Concluded.cases_of_end`).
-/

namespace ViewCompiler

open NodeTree Relation

variable {σ : Type}

/-- One step of the way from a node to the output that it is in. -/
inductive Leads (l : Answers) (t : NodeTree) (n : NodeId) : NodeId → Prop
  /-- A node that has been moved leads to where it has been moved. -/
  | moved {p : NodeId} (target : (l.about n).target? = some p)
      (parent : t.renderParent? n = some p) : Leads l t n p
  /-- Any other member of a run leads to the node whose run it is in. -/
  | member {d : NodeId} (stays : ∀ p, (l.about n).target? = some p → t.renderParent? n ≠ some p)
      (asked : d ∈ l.map Prod.fst) (mem : n ∈ t.layoutRun d) : Leads l t n d
  /-- A group leads to the node whose run it is in. -/
  | group {d : NodeId} (kind : t.kind? n = some .group) (owner : t.documentParent? n = some d) :
      Leads l t n d

/-- A node that is no group and in the layout of no document. -/
def Foreign (t : NodeTree) (documents : List DocumentEntry) (m : NodeId) : Prop :=
  t.kind? m ≠ some .group ∧
    ∀ e ∈ documents, ∀ ids, t.layoutSubtree e.root = .ok ids → m ∉ ids

/-- The way from a node ends in no output. -/
inductive Lost (l : Answers) (t : NodeTree) (documents : List DocumentEntry)
    (outputs : List Resolution) (n : NodeId) : Prop
  /-- It leads round in a loop. -/
  | loops (m : NodeId) (way : ReflTransGen (Leads l t) n m) (loop : TransGen (Leads l t) m m)
  /-- It is left for a node that is written nowhere, to which a node on it has been moved. -/
  | leaves (x m : NodeId) (way : ReflTransGen (Leads l t) n x) (step : Leads l t x m)
      (target : (l.about x).target? = some m) (foreign : Foreign t documents m)
      (unwritten : m ∉ outputs.map Resolution.root)

/-- The outputs and the reports of a conversion account for the nodes of its documents. -/
structure AccountedFor (l : Answers) (t : NodeTree) (documents : List DocumentEntry)
    (diagnostics : List Diagnostic) (outputs : List Resolution) : Prop where
  unresolved : ∀ R ∈ outputs, R.unresolved = []
  cycles : ∀ R ∈ outputs, R.cycles = []
  /-- No node is emitted twice. -/
  once : (outputs.flatMap fun R ↦ R.pieces.filterMap Piece.node?).Nodup
  /-- A node is emitted in the output that its way ends in, unless it is lost. -/
  nodes : ∀ e ∈ documents, ∃ ids, t.layoutSubtree e.root = .ok ids ∧ ∀ n ∈ ids,
    (∀ R ∈ outputs, (n ∈ R.pieces.filterMap Piece.node? ↔ ReflTransGen (Leads l t) n R.root)) ∧
      ((∃ R ∈ outputs, n ∈ R.pieces.filterMap Piece.node?) ↔ ¬Lost l t documents outputs n)
  /-- A node that was to be moved renders where it was to be moved, or that is reported. -/
  refused : ∀ x p, (l.about x).target? = some p →
    t.renderParent? x = some p ∨ ∃ e ∈ diagnostics, e.node = some x

theorem leads_of_unmoved {l : Answers} {t t' : NodeTree} (hu : NodeTree.Unmoved t t') :
    Leads l t' = Leads l t := by
  have hkeep : ∀ {t t' : NodeTree}, NodeTree.Unmoved t t' → ∀ {n m}, Leads l t n m →
      Leads l t' n m := by
    intro t t' hu n m hleads
    cases hleads with
    | moved target parent => exact .moved target ((hu.renderParent? n).trans parent)
    | member stays asked mem =>
      exact .member (fun p hp ↦ hu.renderParent? n ▸ stays p hp) asked
        (hu.extended.layoutRun_eq ▸ mem)
    | group kind owner =>
      exact .group (hu.extended.kind?_eq kind) (hu.extended.documentParent?_eq owner)
  have hback : NodeTree.Unmoved t' t := ⟨fun i ↦ (hu.links i).symm, fun i ↦ (hu.place i).symm⟩
  funext n m
  exact propext ⟨hkeep hback, hkeep hu⟩

namespace Concluded

variable {h : Host σ} {l : Answers} {moved : List (NodeId × NodeId)} {r kept : Run σ}
  {d : Decided σ} (hd : Concluded .moves h l moved r kept d)

include hd

/-- No node is replaced. -/
theorem replacement?_eq_none (n : NodeId) : (l.about n).replacement? = none := by
  by_cases hn : n ∈ l.map Prod.fst
  · refine Option.eq_none_iff_forall_ne_some.2 fun text htext ↦ ?_
    exact hd.answered.allowed n hn text (HookAction.replacement?_eq_some_iff.1 htext)
  · rw [Answers.about_eq_proceed hn]
    rfl

/-- A group is not asked about, and in no run. -/
theorem owner_of_leads {g m e : NodeId} (hgroup : d.run.context.tree.kind? g = some .group)
    (howner : d.run.context.tree.documentParent? g = some e)
    (hleads : Leads l d.run.context.tree g m) : m = e := by
  cases hleads with
  | moved target =>
    obtain ⟨k, hk, hne, -⟩ := hd.kind_asked (Answers.mem_of_target target)
    exact absurd (Option.some.inj (hk.symm.trans hgroup)) hne
  | member _ _ mem =>
    rcases hd.answered.arranged.forest.kind?_of_mem mem with hk | hk <;>
      exact absurd (hk.symm.trans hgroup) (by decide)
  | group _ owner => exact Option.some.inj (owner.symm.trans howner)

/-- **One step at most leads from a node.** -/
theorem leads_unique : Relator.RightUnique (Leads l d.run.context.tree) := by
  intro n m m' hleads hleads'
  by_cases hgroup : d.run.context.tree.kind? n = some .group
  · obtain ⟨-, -, e, -, howner⟩ := hd.answered.arranged.group n hgroup
    exact (hd.owner_of_leads hgroup howner hleads).trans
      (hd.owner_of_leads hgroup howner hleads').symm
  cases hleads with
  | moved target parent =>
    cases hleads' with
    | moved target' => exact Option.some.inj (target.symm.trans target')
    | member stays => exact absurd parent (stays m target)
    | group kind => exact absurd kind hgroup
  | member stays _ mem =>
    cases hleads' with
    | moved target' parent' => exact absurd parent' (stays m' target')
    | member _ _ mem' => exact hd.answered.arranged.forest.forest.parent mem mem'
    | group kind => exact absurd kind hgroup
  | group kind => exact absurd kind hgroup

/-- No step leads from a node that is written. -/
theorem not_leads_of_target {x : NodeId} (hx : x ∈ d.run.context.targets.map DocumentEntry.root)
    (m : NodeId) : ¬Leads l d.run.context.tree x m := by
  obtain ⟨k, hk, htop⟩ := hd.kind_target hx
  intro hleads
  cases hleads with
  | moved _ parent =>
    exact hd.outermost hx m (mem_order.2 ((hd.answered.arranged.mem_iff m x).2 parent))
  | member _ _ mem =>
    rcases hd.answered.arranged.forest.kind?_of_mem mem with hk' | hk' <;>
      rw [hk', Option.some.injEq] at hk <;> subst hk <;> exact absurd htop (by decide)
  | group kind =>
    rw [kind, Option.some.injEq] at hk
    subst hk
    exact absurd htop (by decide)

/-- No step leads from a node that is no group and in the layout of no document. -/
theorem not_leads_of_outside {m : NodeId} (hgroup : d.run.context.tree.kind? m ≠ some .group)
    (hout : ∀ e ∈ d.run.context.documents, ¬Inside d.run.context.tree.layoutRun e.root m)
    (k : NodeId) : ¬Leads l d.run.context.tree m k := by
  have hasked : ∀ {i}, i ∈ l.map Prod.fst → ∃ e ∈ d.run.context.documents,
      Inside d.run.context.tree.layoutRun e.root i := fun {i} hi ↦ by
    obtain ⟨e, he, hin, -⟩ := (hd.mem_answers_iff i).1 hi
    exact ⟨e, he, hin⟩
  intro hleads
  cases hleads with
  | moved target =>
    obtain ⟨e, he, hin⟩ := hasked (Answers.mem_of_target target)
    exact hout e he hin
  | member _ asked mem =>
    obtain ⟨e, he, hin⟩ := hasked asked
    exact hout e he (hin.tail mem)
  | group kind => exact hgroup kind

/-- **A step of the way leads to a node around.** -/
theorem inside_of_leads {n m : NodeId} (hleads : Leads l d.run.context.tree n m) :
    Inside d.run.context.tree.order m n := by
  have ha := hd.answered.arranged
  cases hleads with
  | moved _ parent => exact .single (mem_order.2 ((ha.mem_iff m n).2 parent))
  | member stays asked mem =>
    obtain ⟨p, hp⟩ :=
      ha.covered m (mem_settledIn.2 ⟨asked, hd.replacement?_eq_none m⟩) n mem
    refine ha.inside_member hp (ha.forest.documentParent mem) fun q hq ↦ ?_
    exact stays q (hd.answered.answered n q hq).2 (ha.moves n q hq).1
  | group kind owner => exact ha.inside_group kind owner

theorem inside_of_way {n m : NodeId} (hway : ReflTransGen (Leads l d.run.context.tree) n m) :
    Inside d.run.context.tree.order m n := by
  induction hway with
  | refl => exact .refl
  | tail _ hleads ih => exact (hd.inside_of_leads hleads).trans ih

/-- **The way from a node inside another one leads there**, unless that is a group. -/
theorem way_of_inside {x n : NodeId} (hx : d.run.context.tree.kind? x ≠ some .group)
    (hn : Inside d.run.context.tree.order x n) :
    ReflTransGen (Leads l d.run.context.tree) n x := by
  have ha := hd.answered.arranged
  induction hn with
  | refl => exact .refl
  | @tail p c _ hc ih =>
    have hparent := (ha.mem_iff p c).1 (mem_order.1 hc)
    by_cases hmoved : (l.about c).target? = some p
    · exact .head (.moved hmoved hparent) ih
    -- a node that has not been moved to `p` is in a run, and `p` is the node whose run it is or a
    -- group in the run, which the way from `c` passes by
    cases ha.explained c p hparent with
    | moved mem => exact absurd (hd.answered.answered c p mem).2 hmoved
    | settled e mem parent inner outer =>
      have hstep : Leads l d.run.context.tree c e := by
        rcases inner with ⟨hgroup, -⟩ | hrun
        · exact .group hgroup parent
        · refine .member (fun q hq hq' ↦ ?_) (mem_settledIn.1 mem).1 hrun
          exact hmoved (Option.some.inj (hparent.symm.trans hq') ▸ hq)
      refine .head hstep ?_
      rcases outer with rfl | ⟨hgroup, howner⟩
      · exact ih
      · rcases ReflTransGen.cases_head ih with rfl | ⟨q, hq, hway⟩
        · exact absurd hgroup hx
        · exact hd.owner_of_leads hgroup howner hq ▸ hway

/-- **A node is in the output that its way ends in.** -/
theorem inside_iff_way {x n : NodeId} (hx : x ∈ d.run.context.targets.map DocumentEntry.root) :
    Inside d.run.context.tree.order x n ↔ ReflTransGen (Leads l d.run.context.tree) n x := by
  obtain ⟨k, hk, htop⟩ := hd.kind_target hx
  refine ⟨hd.way_of_inside fun hgroup ↦ ?_, hd.inside_of_way⟩
  obtain rfl := Option.some.inj (hk.symm.trans hgroup)
  exact absurd htop (by decide)

theorem lt_size_of_leads {n m : NodeId} (hleads : Leads l d.run.context.tree n m) :
    m < d.run.context.tree.size := by
  cases hleads with
  | moved _ parent =>
    exact ViewCompiler.lt_size_of_mem_order
      (mem_order.2 ((hd.answered.arranged.mem_iff m n).2 parent))
  | member _ _ mem => exact lt_size_of_mem_layoutRun mem
  | group kind owner =>
    obtain ⟨-, -, e, he, howner⟩ := hd.answered.arranged.group n kind
    obtain ⟨k, hk, -⟩ := hd.answered.arranged.settles e he
    exact Option.some.inj (howner.symm.trans owner) ▸ lt_size_of_kind? hk

/-- A node of a document from which no step leads is the root, and that is written. -/
theorem mem_targets_of_end {e : DocumentEntry} (he : e ∈ d.run.context.documents) {m : NodeId}
    (hm : Inside d.run.context.tree.layoutRun e.root m)
    (hend : ∀ k, ¬Leads l d.run.context.tree m k) :
    m ∈ d.run.context.targets.map DocumentEntry.root := by
  have ha := hd.answered.arranged
  have hunmoved : ∀ p, (l.about m).target? = some p →
      d.run.context.tree.renderParent? m ≠ some p := fun p hp hparent ↦
    hend p (.moved hp hparent)
  rcases ReflTransGen.cases_tail hm with rfl | ⟨q, hq, hmem⟩
  · have hroot := List.mem_map_of_mem (f := DocumentEntry.root) he
    have hkind := hd.kind_root hroot
    refine Context.mem_targets.2 (.inl ⟨lt_size_of_kind? hkind, ?_, hroot⟩)
    refine ha.renderParent_eq_none (fun p hp ↦ ?_) fun p hp _ ↦ ?_
    · exact hunmoved p (hd.answered.answered _ p hp).2 (ha.moves _ p hp).1
    · exact absurd ((ha.documentParent?_of_isTop hkind rfl).symm.trans hp) (by simp)
  · exact absurd (.member hunmoved (hd.mem_asked he hq (List.ne_nil_of_mem hmem)) hmem) (hend q)

/-- A node from which no step leads is written, or a node has been moved to it from elsewhere. -/
theorem cases_of_end {e : DocumentEntry} (he : e ∈ d.run.context.documents) {n m : NodeId}
    (hn : Inside d.run.context.tree.layoutRun e.root n)
    (hway : ReflTransGen (Leads l d.run.context.tree) n m)
    (hend : ∀ k, ¬Leads l d.run.context.tree m k) :
    m ∈ d.run.context.targets.map DocumentEntry.root ∨
      (∃ x, ReflTransGen (Leads l d.run.context.tree) n x ∧ Leads l d.run.context.tree x m ∧
        (l.about x).target? = some m) ∧
      d.run.context.tree.kind? m ≠ some .group ∧
      ∀ e' ∈ d.run.context.documents, ¬Inside d.run.context.tree.layoutRun e'.root m := by
  have ha := hd.answered.arranged
  by_cases hin : ∃ e' ∈ d.run.context.documents,
      Inside d.run.context.tree.layoutRun e'.root m
  · obtain ⟨e', he', hm⟩ := hin
    exact .inl (hd.mem_targets_of_end he' hm hend)
  have hout : ∀ e' ∈ d.run.context.documents,
      ¬Inside d.run.context.tree.layoutRun e'.root m := fun e' he' hm ↦ hin ⟨e', he', hm⟩
  have hasked : m ∉ l.map Prod.fst := fun hmem ↦ by
    obtain ⟨e', he', hm, -⟩ := (hd.asked m).1 hmem
    rw [← hd.answered.extended.layoutRun_eq] at hm
    exact hout e' (hd.answered.documents ▸ he') hm
  refine .inr ⟨?_, fun hgroup ↦ ?_, hout⟩
  · rcases ReflTransGen.cases_tail hway with rfl | ⟨x, hx, hleads⟩
    · exact absurd hn (hout e he)
    · refine ⟨x, hx, hleads, ?_⟩
      cases hleads with
      | moved target => exact target
      | member _ asked => exact absurd asked hasked
      | group kind owner =>
        obtain ⟨-, -, q, hq, howner⟩ := ha.group x kind
        obtain rfl := Option.some.inj (howner.symm.trans owner)
        exact absurd (mem_settledIn.1 hq).1 hasked
  · obtain ⟨-, -, q, -, howner⟩ := ha.group m hgroup
    exact hend q (.group hgroup howner)

end Concluded

namespace Converted

variable {c : Converter σ} {p : Provider} {palette : Palette} {s : σ}
  {moved : List (NodeId × NodeId)} {kept : Run σ} {d : Decided σ} {a : Assembled} {r : Run σ}
  {os : List Outline} {o : ConversionOutput}
  (h : Converted .moves c p palette s moved kept d a r os o)

include h

/-- The nodes in an output are those of its outline. -/
theorem nodes_eq {R : Resolution} {o : Outline} (ho : o ∈ os)
    (hR : R.Gives (o.pieces d.replacements)) : R.pieces.filterMap Piece.node? = o.ids := by
  rw [hR.1, Outline.nodes_pieces h.concluded.textual (h.written.outlined.follows o ho)]
  refine List.filter_eq_self.2 fun i _ ↦ ?_
  rw [h.concluded.replacements_eq, h.concluded.replacement?_eq_none]
  rfl

theorem flatMap_nodes_eq : ((a.resolutions r.context.tree).flatMap fun R ↦
    R.pieces.filterMap Piece.node?) = os.flatMap Outline.ids := by
  have heach : List.Forall₂ (fun (o : Outline) (R : Resolution) ↦
      R.pieces.filterMap Piece.node? = o.ids) os (a.resolutions r.context.tree) := by
    obtain ⟨hlength, hgives⟩ := List.forall₂_iff_get.1 h.written.gives
    exact List.forall₂_iff_get.2 ⟨hlength, fun k hk hk' ↦
      h.nodes_eq (List.get_mem os _) (hgives k hk hk').2⟩
  generalize a.resolutions r.context.tree = outputs at heach
  clear h
  induction heach with
  | nil => rfl
  | cons hR _ ih => rw [List.flatMap_cons, List.flatMap_cons, hR, ih]

theorem mem_targets {R : Resolution} (hR : R ∈ a.resolutions r.context.tree) :
    R.root ∈ d.run.context.targets.map DocumentEntry.root :=
  h.written.roots ▸ List.mem_map_of_mem hR

/-- **A node is emitted in the output that its way ends in.** -/
theorem mem_nodes_iff {R : Resolution} (hR : R ∈ a.resolutions r.context.tree) (n : NodeId) :
    n ∈ R.pieces.filterMap Piece.node? ↔
      ReflTransGen (Leads (c.answers p palette s) d.run.context.tree) n R.root := by
  obtain ⟨o, ho, hroot, hgives⟩ := h.written.exists_outline hR
  rw [h.nodes_eq ho hgives, Outline.mem_ids_iff (h.written.outlined.follows o ho), ← hroot]
  exact h.concluded.inside_iff_way (h.mem_targets hR)

theorem foreign_iff {m : NodeId} : Foreign r.context.tree r.context.documents m ↔
    d.run.context.tree.kind? m ≠ some .group ∧
      ∀ e ∈ d.run.context.documents, ¬Inside d.run.context.tree.layoutRun e.root m := by
  have hu := h.written.unmoved
  have hkind : r.context.tree.kind? m = d.run.context.tree.kind? m := by
    rw [kind?, kind?, hu.tree.links]
  rw [Foreign, hkind, hu.documents]
  refine and_congr_right fun _ ↦ forall₂_congr fun e he ↦ ?_
  obtain ⟨ids, hok, hiff⟩ := h.exists_layoutSubtree (hu.documents ▸ he)
  rw [← hiff]
  refine ⟨fun hall ↦ hall ids hok, fun hnot ids' hids ↦ ?_⟩
  rwa [← Except.ok.inj (hok.symm.trans hids)]

/-- **A node is emitted unless it is lost**, and then it is not. -/
theorem emitted_iff {e : DocumentEntry} (he : e ∈ d.run.context.documents) {n : NodeId}
    (hn : Inside d.run.context.tree.layoutRun e.root n) :
    (∃ R ∈ a.resolutions r.context.tree, n ∈ R.pieces.filterMap Piece.node?) ↔
      ¬Lost (c.answers p palette s) r.context.tree r.context.documents
        (a.resolutions r.context.tree) n := by
  have hlinks := leads_of_unmoved (l := c.answers p palette s) h.written.unmoved.tree
  constructor
  · rintro ⟨R, hR, hmem⟩ hlost
    have hway := (h.mem_nodes_iff hR n).1 hmem
    have hend := h.concluded.not_leads_of_target (h.mem_targets hR)
    cases hlost with
    | loops m way loop =>
      rw [hlinks] at way loop
      exact not_loop_of_end h.concluded.leads_unique hend hway way loop
    | leaves x m way step _ foreign unwritten =>
      rw [hlinks] at way step
      obtain ⟨hgroup, hout⟩ := h.foreign_iff.1 foreign
      have hend' := h.concluded.not_leads_of_outside hgroup hout
      obtain rfl := eq_of_ends h.concluded.leads_unique hend hend' hway (way.tail step)
      exact unwritten (List.mem_map_of_mem hR)
  · intro hnot
    rcases exists_loop_or_end h.concluded.lt_size_of_leads n with
      ⟨m, hway, hloop⟩ | ⟨m, hway, hend⟩
    · exact absurd (.loops m (hlinks ▸ hway) (hlinks ▸ hloop)) hnot
    -- a way that ends in no output has been left for a node that is in no layout
    by_cases hwritten : m ∈ (a.resolutions r.context.tree).map Resolution.root
    · obtain ⟨R, hR, rfl⟩ := List.mem_map.1 hwritten
      exact ⟨R, hR, (h.mem_nodes_iff hR n).2 hway⟩
    rcases h.concluded.cases_of_end he hn hway hend with
      htarget | ⟨⟨x, hx, hleads, hmoved⟩, hforeign⟩
    · exact absurd (h.written.roots ▸ htarget) hwritten
    · exact absurd (.leaves x m (hlinks ▸ hx) (hlinks ▸ hleads) hmoved
        (h.foreign_iff.2 hforeign) hwritten) hnot

/-- **All nodes are accounted for.** -/
theorem accountedFor :
    AccountedFor (c.answers p palette s) r.context.tree r.context.documents o.diagnostics
      (a.resolutions r.context.tree) where
  unresolved R hR := (h.written.filled_resolution hR).1
  cycles R hR := (h.written.filled_resolution hR).2
  once := h.flatMap_nodes_eq ▸ h.written.outlined.nodup
  nodes e he := by
    obtain ⟨ids, hok, hiff⟩ := h.exists_layoutSubtree he
    refine ⟨ids, hok, fun n hn ↦ ⟨fun R hR ↦ ?_, ?_⟩⟩
    · rw [h.mem_nodes_iff hR, leads_of_unmoved h.written.unmoved.tree]
    · exact h.emitted_iff (h.written.unmoved.documents ▸ he) ((hiff n).1 hn)
  refused x q hq := by
    have hasked := Answers.mem_of_target hq
    refine (h.concluded.answered.carried x hasked q hq).imp (fun hmem ↦ ?_) fun hrefused ↦ ?_
    · rw [h.written.unmoved.tree.renderParent?]
      exact (h.concluded.answered.arranged.moves x q hmem).1
    · obtain ⟨e, he, hnode⟩ := hrefused.1
      exact ⟨e, h.diagnostics ▸ h.written.unmoved.kept he, hnode⟩

end Converted

/-- **A conversion accounts for the nodes that its extensions move.** -/
theorem Converter.accounts_for_moves (c : Converter σ) (p : Provider) (s : σ)
    (hh : c.host.Obeys .moves) {palette : Palette} (hcheck : c.config.check = .ok palette)
    (hdocuments : (c.ingest p palette s).context.documents ≠ []) :
    ∃ o a r, (c.convert p s).1 = .ok o ∧ c.assembled p palette s = (.ok a, r) ∧
      o.documents = (a.targets.zip (a.resolutions r.context.tree)).map (fun e ↦
        e.2.output c.slug c.target r.context.tree e.1) ∧
      (∀ d ∈ o.diagnostics, d.isAboutSlot = false) ∧
      ((∀ s, (c.host.cancelled s).1 = false) →
        r.context.documents = (c.ingest p palette s).context.documents) ∧
      AccountedFor (c.answers p palette s) r.context.tree r.context.documents o.diagnostics
        (a.resolutions r.context.tree) := by
  rcases Converter.exists_converted hh p s hcheck with
    ⟨hnone, -⟩ | ⟨moved, kept, d, a, r, os, o, h⟩
  · exact absurd hnone hdocuments
  exact ⟨o, a, r, h.convert, h.assembled, h.documents, h.filled, fun hruns ↦
    h.written.unmoved.documents.trans (h.documents_eq hruns), h.accountedFor⟩

/-- Moves the first element in the root into the element inside it. -/
def Extension.inwards : Extension Unit where
  name := "inwards"
  onHook point node c s :=
    if point = .beforeClassify ∧ node = some 1 then (.redirect 2, c, s) else (.proceed, c, s)

theorem Extension.obeys_inwards : Extension.inwards.Obeys .moves where
  proceeds point node c s hpoint := by simp [inwards, hpoint]
  requests node c s := by
    rw [inwards]
    dsimp only
    split <;> exact .refl
  allowed node c s text := by
    rw [inwards]
    dsimp only
    split <;> simp

/-- A conversion with that extension. -/
def Converter.inwards : Converter Unit where
  config := { ConversionConfig.default with palette := .empty }
  slug := Text.asciiSlug
  host := ⟨fun s ↦ (false, s), [.inwards]⟩
  dialect := none
  loader := none

/-- Both elements are lost, and nothing is reported. -/
theorem Converter.accounts_for_moves_inwards :
    inwards.host.Obeys .moves ∧ inwards.config.check = .ok ⟨[]⟩ ∧
      (inwards.ingest .nested ⟨[]⟩ ()).context.documents ≠ [] ∧
      ∃ o a r, (inwards.convert .nested ()).1 = .ok o ∧
        inwards.assembled .nested ⟨[]⟩ () = (.ok a, r) ∧
        AccountedFor (inwards.answers .nested ⟨[]⟩ ()) r.context.tree r.context.documents
          o.diagnostics (a.resolutions r.context.tree) ∧
        r.context.documents = [⟨"page", 0⟩] ∧ r.context.tree.layoutSubtree 0 = .ok [0, 1, 2, 3] ∧
        r.context.diagnostics = [] ∧
        ∀ n, n = 1 ∨ n = 2 →
          ¬∃ R ∈ a.resolutions r.context.tree, n ∈ R.pieces.filterMap Piece.node? := by
  have hhost : inwards.host.Obeys .moves := fun e he ↦
    List.mem_singleton.1 he ▸ Extension.obeys_inwards
  have hcheck : inwards.config.check = .ok ⟨[]⟩ := rfl
  have hdocuments : (inwards.ingest .nested ⟨[]⟩ ()).context.documents ≠ [] := by decide
  obtain ⟨o, a, r, hok, hassembled, -, -, -, haccounted⟩ :=
    accounts_for_moves inwards .nested () hhost hcheck hdocuments
  have hr : r = (inwards.assembled .nested ⟨[]⟩ ()).2 := by rw [hassembled]
  have hpage : r.context.documents = [⟨"page", 0⟩] := by
    rw [hr]
    decide +kernel
  have hlayout : r.context.tree.layoutSubtree 0 = .ok [0, 1, 2, 3] := by
    rw [hr]
    decide +kernel
  have hreports : r.context.diagnostics = [] := by
    rw [hr]
    exact List.isEmpty_iff.1 (by decide +kernel)
  -- the way from one element leads to the other and back
  have hfirst : Leads (inwards.answers .nested ⟨[]⟩ ()) r.context.tree 1 2 := by
    refine .moved (by decide +kernel) ?_
    rw [hr]
    decide +kernel
  have hsecond : Leads (inwards.answers .nested ⟨[]⟩ ()) r.context.tree 2 1 := by
    have hnone : ((inwards.answers .nested ⟨[]⟩ ()).about 2).target? = none := by decide +kernel
    refine .member (fun p hp ↦ absurd (hnone.symm.trans hp) (by simp)) (by decide +kernel) ?_
    rw [hr]
    decide +kernel
  obtain ⟨ids, hids, hnodes⟩ :=
    haccounted.nodes ⟨"page", 0⟩ (by rw [hpage]; exact List.mem_singleton_self _)
  obtain rfl : ids = [0, 1, 2, 3] := Except.ok.inj (hids.symm.trans hlayout)
  refine ⟨hhost, hcheck, hdocuments, o, a, r, hok, hassembled, haccounted, hpage, hlayout, hreports,
    fun n hn hemitted ↦ ?_⟩
  rcases hn with rfl | rfl
  · exact (hnodes 1 (by decide)).2.1 hemitted (.loops 1 .refl (.head hfirst (.single hsecond)))
  · exact (hnodes 2 (by decide)).2.1 hemitted (.loops 2 .refl (.head hsecond (.single hfirst)))

end ViewCompiler
