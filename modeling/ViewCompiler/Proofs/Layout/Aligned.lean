import ViewCompiler.Proofs.Layout.Footprint
import ViewCompiler.Proofs.Layout.ParentOrder

/-!
# No group is aligned on a baseline

`Baselines` says of plans that what is aligned on a baseline are nodes of the run. Here the same is
said of trees in which plans have been carried out: what renders in a container that aligns its
members is no group (`NodeTree.Level`), whatever runs are classified one after another
(`Classify.level_runs`).

A container is decided on together with its members, and it has none before (`Level.fills`). For a
new group that is clear, and for the node whose run it is it holds since each run is classified
once.
-/

namespace ViewCompiler

open NodeTree

namespace NodeTree

/-- How a node contains others. -/
def container? (t : NodeTree) (i : NodeId) : Option Container := (t.get? i).map Node.container

/-- A node that is no group. -/
def Stands (t : NodeTree) (i : NodeId) : Prop := ∃ k, t.kind? i = some k ∧ k ≠ .group

/-- What is aligned on a baseline are nodes that are no groups. -/
def Level (t : NodeTree) : Prop :=
  ∀ p, t.container? p = some .relative → ∀ i ∈ t.renderMembers p, t.Stands i

variable {t t' : NodeTree}

theorem Stands.lt_size {i : NodeId} (h : t.Stands i) : i < t.size := by
  obtain ⟨k, hk, -⟩ := h
  exact lt_size_of_kind? hk

theorem Stands.of_kind? {i : NodeId} (h : t.Stands i) (hkind : t'.kind? i = t.kind? i) :
    t'.Stands i := by
  obtain ⟨k, hk, hne⟩ := h
  exact ⟨k, hkind.trans hk, hne⟩

theorem container?_modify (t : NodeTree) {f : Node → Node}
    (hf : ∀ n, (f n).container = n.container) (id i : NodeId) :
    (t.modify id f).container? i = t.container? i := by
  rw [container?, container?, get?_modify]
  split
  · rw [Option.map_map]
    exact congrArg (Option.map · (t.get? i)) (funext hf)
  · rfl

theorem container?_modify_of_ne (t : NodeTree) (f : Node → Node) {id i : NodeId} (hne : i ≠ id) :
    (t.modify id f).container? i = t.container? i := by
  rw [container?, container?, get?_modify, if_neg (Ne.symm hne)]

theorem kind?_modify (t : NodeTree) {f : Node → Node} (hf : ∀ n, (f n).links = n.links)
    (id i : NodeId) : (t.modify id f).kind? i = t.kind? i := by
  rw [kind?, kind?, links?_modify t hf]

/-- The nodes inside another one, by the record of it. -/
theorem renderMembers_of_get? {i : NodeId} {m : Node} (h : t.get? i = some m) :
    t.renderMembers i = m.renderChildren := by
  rw [renderMembers, place_of_get? h]
  rfl

theorem renderMembers_modify (t : NodeTree) {f : Node → Node}
    (hf : ∀ n, (f n).renderChildren = n.renderChildren) (id i : NodeId) :
    (t.modify id f).renderMembers i = t.renderMembers i := by
  rw [renderMembers, renderMembers, place, place, get?_modify]
  split
  · cases t.get? i with
    | none => rfl
    | some n => exact hf n
  · rfl

theorem renderMembers_congr {i : NodeId} (h : t'.get? i = t.get? i) :
    t'.renderMembers i = t.renderMembers i := by
  rw [renderMembers, renderMembers, place, place, h]

end NodeTree

/-- **Nodes are the same kind of node** after classification. -/
theorem Confined.kind?_eq {part : NodeId → Prop} {t t' : NodeTree} (h : Confined part t t')
    {i : NodeId} (hi : i < t.size) : t'.kind? i = t.kind? i := by
  obtain ⟨m, hm⟩ := exists_get? hi
  obtain ⟨m', hm', hsame⟩ := h.exists_undecided hm
  rw [kind?, kind?, links?_of_get? hm, links?_of_get? hm']
  exact congrArg some (congrArg Node.kind hsame :)

/-- A container has got some members, and is the only one that has changed. -/
structure Fills (owner : NodeId) (ids : List NodeId) (t t' : NodeTree) : Prop where
  container : ∀ i ≠ owner, t'.container? i = t.container? i
  members : ∀ i ≠ owner, t'.renderMembers i = t.renderMembers i
  inside : ∀ c ∈ t'.renderMembers owner, c ∈ t.renderMembers owner ∨ c ∈ ids
  kind : ∀ i, t'.kind? i = t.kind? i

namespace Fills

variable {owner : NodeId} {ids : List NodeId} {t t' t'' : NodeTree}

theorem refl (owner : NodeId) (ids : List NodeId) (t : NodeTree) : Fills owner ids t t :=
  ⟨fun _ _ ↦ rfl, fun _ _ ↦ rfl, fun _ hc ↦ .inl hc, fun _ ↦ rfl⟩

variable (h : Fills owner ids t t')

include h

theorem trans (h' : Fills owner ids t' t'') : Fills owner ids t t'' where
  container i hi := (h'.container i hi).trans (h.container i hi)
  members i hi := (h'.members i hi).trans (h.members i hi)
  inside c hc := (h'.inside c hc).elim (h.inside c) .inr
  kind i := (h'.kind i).trans (h.kind i)

/-- A node changes, but not as a container. -/
theorem modify {f : Node → Node} (hlinks : ∀ n, (f n).links = n.links)
    (hcontainer : ∀ n, (f n).container = n.container)
    (hmembers : ∀ n, (f n).renderChildren = n.renderChildren) (id : NodeId) :
    Fills owner ids t (t'.modify id f) :=
  h.trans ⟨fun i _ ↦ container?_modify t' hcontainer id i,
    fun i _ ↦ renderMembers_modify t' hmembers id i,
    fun c hc ↦ .inl (by rwa [renderMembers_modify t' hmembers] at hc),
    kind?_modify t' hlinks id⟩

/-- The container is decided on. -/
theorem modify_owner {f : Node → Node} (hlinks : ∀ n, (f n).links = n.links)
    (hmembers : ∀ n, (f n).renderChildren = n.renderChildren) :
    Fills owner ids t (t'.modify owner f) :=
  h.trans ⟨fun i hi ↦ container?_modify_of_ne t' f hi,
    fun i _ ↦ renderMembers_modify t' hmembers owner i,
    fun c hc ↦ .inl (by rwa [renderMembers_modify t' hmembers] at hc),
    kind?_modify t' hlinks owner⟩

/-- The container gets one more member. -/
theorem around {id : NodeId} (hid : id ∈ ids) :
    Fills owner ids t (t'.modify owner (around id)) := by
  refine h.trans ⟨fun i hi ↦ container?_modify_of_ne t' _ hi, fun i hi ↦ ?_, fun c hc ↦ ?_,
    kind?_modify t' (f := NodeTree.around id) (fun _ ↦ rfl) owner⟩
  · exact renderMembers_congr (by rw [get?_modify, if_neg (Ne.symm hi)])
  · cases hm : t'.get? owner with
    | none =>
      have hsame : (t'.modify owner (NodeTree.around id)).get? owner = t'.get? owner := by
        rw [get?_modify, if_pos rfl, hm]
        rfl
      rw [renderMembers_congr hsame] at hc
      exact .inl hc
    | some m =>
      have hm' : (t'.modify owner (NodeTree.around id)).get? owner =
          some { m with renderChildren := m.renderChildren ++ [id] } := by
        rw [get?_modify, if_pos rfl, hm]
        rfl
      rw [renderMembers_of_get? hm'] at hc
      rw [renderMembers_of_get? hm]
      refine (List.mem_append.1 hc).imp_right fun hc ↦ ?_
      rwa [List.mem_singleton.1 hc]

end Fills

/-- **A container that had no members** gets members that are no groups, or it does not align
them. -/
theorem NodeTree.Level.fills {owner : NodeId} {ids : List NodeId} {t t' : NodeTree} (h : t.Level)
    (hf : Fills owner ids t t') (hnil : t.renderMembers owner = [])
    (hids : t'.container? owner = some .relative → ∀ i ∈ ids, t.Stands i) : t'.Level := by
  intro p hp i hi
  by_cases howner : p = owner
  · subst howner
    have hin := (hf.inside i hi).resolve_left (hnil ▸ List.not_mem_nil)
    exact (hids hp i hin).of_kind? (hf.kind i)
  · rw [hf.container p howner] at hp
    rw [hf.members p howner] at hi
    exact (h p hp i hi).of_kind? (hf.kind i)

namespace Classify

variable (c : LayoutConfig)

theorem fills_placeMember {owner : NodeId} {ids : List NodeId} {t : NodeTree} {p : Placing}
    (h : Fills owner ids t p.tree) {id : NodeId} (hid : id ∈ ids) :
    Fills owner ids t (placeMember owner p id).tree := by
  unfold placeMember setRenderParent
  cases p.tree.get? owner with
  | none => exact h
  | some q =>
    cases p.tree.get? id with
    | none => exact h
    | some m =>
      cases hparent : m.renderParent with
      | some existing =>
        simp only [hparent]
        exact h
      | none =>
        simp only [hparent]
        have hinside := h.modify (f := inside owner) (fun _ ↦ rfl) (fun _ ↦ rfl) (fun _ ↦ rfl) id
        exact (hinside.around hid).modify (fun _ ↦ by rfl) (fun _ ↦ by rfl) (fun _ ↦ by rfl) id

theorem fills_mark (owner : NodeId) (ids : List NodeId) (content : Rect) (a : Arrangement)
    (flags : Flags) (members : List NodeId) {t t' : NodeTree} (h : Fills owner ids t t') :
    Fills owner ids t (mark c owner content a flags members t') := by
  have hmarked := List.foldlRecOn (motive := Fills owner ids t) members
    (fun t id ↦ t.modify id fun n ↦ n.addFlags (memberFlags c a.container content n)) h
    fun t' h i _ ↦ h.modify (fun _ ↦ by rfl) (fun _ ↦ by rfl) (fun _ ↦ by rfl) i
  unfold mark
  dsimp only
  refine Fills.modify_owner ?_ (fun _ ↦ by rfl) (fun _ ↦ by rfl)
  cases a.baseline with
  | none => exact hmarked
  | some id => exact hmarked.modify (fun _ ↦ by rfl) (fun _ ↦ by rfl) (fun _ ↦ by rfl) id

/-- **Settling a container** changes no other. -/
theorem fills_settle (owner : NodeId) (synthetic : Bool) (a : Arrangement) (members : List NodeId)
    (s : State) : Fills owner members s.tree (settle c owner synthetic a members s).tree := by
  have hplaced := List.foldlRecOn (motive := fun p ↦ Fills owner members s.tree p.tree)
    ((reordering? s.tree a members).getD members) (placeMember owner)
    (show Fills owner members s.tree (⟨s.tree, [], []⟩ : Placing).tree from .refl _ _ _)
    fun p h i hi ↦ fills_placeMember h ((perm_reordering? s.tree a members).mem_iff.1 hi)
  exact fills_mark c owner members _ a _ _ hplaced

/-- The container is the one of the arrangement. -/
theorem container?_settle {owner : NodeId} {synthetic : Bool} {a : Arrangement}
    {members : List NodeId} {s : State} {x : Container}
    (h : (settle c owner synthetic a members s).tree.container? owner = some x) :
    a.container = x := by
  unfold settle mark container? at h
  dsimp only at h
  rw [get?_modify, if_pos rfl, Option.map_map] at h
  obtain ⟨m, -, rfl⟩ := Option.map_eq_some_iff.1 h
  rfl

/-- **A container is settled** in a tree in which it has nothing inside. -/
theorem level_settle {owner : NodeId} {synthetic : Bool} {a : Arrangement} {members : List NodeId}
    {s : State} (h : s.tree.Level) (hnil : s.tree.renderMembers owner = [])
    (hmembers : a.container = .relative → ∀ i ∈ members, s.tree.Stands i) :
    (settle c owner synthetic a members s).tree.Level :=
  h.fills (fills_settle c owner synthetic a members s) hnil fun hx ↦
    hmembers (container?_settle c hx)

variable {c} {parent : NodeId} {content : Rect} {nodes : List Node}

/-- **A new group** has nothing inside yet. -/
theorem level_allocGroup {t t' : NodeTree} (h : t.Level) {bounds : Rect} {id : NodeId}
    (hok : t.allocGroup parent bounds = .ok (id, t')) : t'.Level ∧ id = t.size ∧
      id < t'.size ∧ t'.renderMembers id = [] ∧ ∀ i, t.Stands i → t'.Stands i := by
  have hconfined := Confined.allocGroup (.refl (fun _ ↦ False) t) hok
  have hstands : ∀ i, t.Stands i → t'.Stands i := fun i hi ↦
    hi.of_kind? (hconfined.kind?_eq hi.lt_size)
  obtain ⟨p, hp⟩ := exists_get?_of_allocGroup hok
  obtain ⟨t₁, halloc, hsize, -, -, hplace⟩ := exists_allocGroup (lt_size_of_get? hp) bounds
  obtain ⟨rfl, rfl⟩ := Prod.mk.inj (Except.ok.inj (halloc.symm.trans hok))
  have hmembers : ∀ i, t₁.renderMembers i = t.renderMembers i := fun i ↦
    congrArg Place.renderChildren (hplace i)
  refine ⟨fun p hp i hi ↦ ?_, rfl, hsize ▸ Nat.lt_succ_self _, ?_, hstands⟩
  · rw [hmembers] at hi
    refine hstands i (h p ?_ i hi)
    rcases Nat.lt_or_ge p t.size with hlt | hge
    · rw [← hp, container?, container?, hconfined.others p hlt id]
    · rw [renderMembers, place_eq_blank hge] at hi
      exact absurd hi List.not_mem_nil
  · rw [hmembers, renderMembers, place_eq_blank (Nat.le_refl _)]
    rfl

/-- Members that are nodes of the run are realized as they are. -/
theorem realizeAll_of_members {ps : List Plan} (hps : ∀ p ∈ ps, ∃ id, p = .member id) {s s' : State}
    {ids : List NodeId} (hok : realizeAll c parent s ps = .ok (ids, s')) :
    ids = leavesOfAll ps := by
  induction ps generalizing s ids with
  | nil =>
    exact (realizeAll_nil_cases hok).1.symm
  | cons p r ih =>
    obtain ⟨id, rfl⟩ := hps p List.mem_cons_self
    obtain ⟨id', s₁, ids', hfirst, hrest, rfl⟩ := realizeAll_cons_cases hok
    obtain ⟨rfl, rfl⟩ := realize_member_cases hfirst
    rw [ih (fun q hq ↦ hps q (List.mem_cons_of_mem _ hq)) hrest]
    rfl

/-- **A container whose members have been realized**, and that is not one of them. -/
theorem level_realized {owner : NodeId} {a : Arrangement} {ps : List Plan} (ha : a.Level ps)
    (hps : ShapedAll c content nodes ps) {s s' : State} {ids : List NodeId}
    (hleaves : ∀ i ∈ leavesOfAll ps, s.tree.Stands i) (howner : owner < s.tree.size)
    (hnot : owner ∉ leavesOfAll ps) (hnil : s.tree.renderMembers owner = [])
    (hok : realizeAll c parent s ps = .ok (ids, s')) (h : s'.tree.Level) (synthetic : Bool) :
    (settle c owner synthetic a ids s').tree.Level := by
  have hmade := confined_realizeAll hps hok
  refine level_settle c h ((renderMembers_congr (hmade.others owner howner hnot)).trans hnil)
    fun hcontainer i hi ↦ ?_
  rw [realizeAll_of_members (ha.nodes hcontainer) hok] at hi
  exact (hleaves i hi).of_kind? (hmade.kind?_eq (hleaves i hi).lt_size)

mutual

/-- **Carrying a plan out**, whose leaves are nodes of the run. -/
theorem level_realize : ∀ (p : Plan) (s : State), p.Shaped c content nodes →
    (∀ i ∈ p.leaves, s.tree.Stands i) → s.tree.Level → ∀ {id : NodeId} {s' : State},
      realize c parent s p = .ok (id, s') → s'.tree.Level
  | .member id, s => by
    intro _ _ h id' s' hok
    obtain ⟨-, rfl⟩ := realize_member_cases hok
    exact h
  | .group a members, s => by
    intro hshaped hleaves h id s' hok
    rw [Plan.leaves] at hleaves
    obtain ⟨t₁, ids, s₁, halloc, hall, rfl⟩ := realize_group_cases hok
    obtain ⟨hgroup, hid, hlt, hnil, hstands⟩ := level_allocGroup h halloc
    have hleaves₁ : ∀ i ∈ leavesOfAll members, t₁.Stands i := fun i hi ↦ hstands i (hleaves i hi)
    have hnew : id ∉ leavesOfAll members := fun hi ↦
      Nat.lt_irrefl _ (hid ▸ (hleaves id hi).lt_size)
    exact level_realized hshaped.1.level hshaped.2 hleaves₁ hlt hnew hnil hall
      (level_realizeAll members ⟨t₁, s.outcome⟩ hshaped.2 hleaves₁ hgroup hall) true

theorem level_realizeAll : ∀ (ps : List Plan) (s : State), ShapedAll c content nodes ps →
    (∀ i ∈ leavesOfAll ps, s.tree.Stands i) → s.tree.Level →
    ∀ {ids : List NodeId} {s' : State}, realizeAll c parent s ps = .ok (ids, s') → s'.tree.Level
  | [], s => by
    intro _ _ h ids s' hok
    obtain ⟨-, rfl⟩ := realizeAll_nil_cases hok
    exact h
  | p :: r, s => by
    intro hshaped hleaves h ids s' hok
    rw [leavesOfAll] at hleaves
    obtain ⟨id, s₁, ids', hfirst, hrest, rfl⟩ := realizeAll_cons_cases hok
    have hmade := level_realize p s hshaped.1 (fun i hi ↦ hleaves i (List.mem_append_left _ hi)) h
      hfirst
    have hkept := confined_realize hshaped.1 hfirst
    refine level_realizeAll r s₁ hshaped.2 (fun i hi ↦ ?_) hmade hrest
    have hi' := hleaves i (List.mem_append_right _ hi)
    exact hi'.of_kind? (hkept.kind?_eq hi'.lt_size)

end

/-! ### Whole runs -/

theorem level_markOverlays (c : LayoutConfig) {t : NodeTree} (p : Node) (run : List Node)
    (h : t.Level) : (markOverlays c t p run).Level := by
  refine List.foldlRecOn (motive := NodeTree.Level) (Plan.positioned c p.contentBox run) _ h
    fun t h m _ i hi j hj ↦ ?_
  rw [container?_modify t fun _ ↦ by rfl] at hi
  rw [renderMembers_modify t fun _ ↦ by rfl] at hj
  exact (h i hi j hj).of_kind? (kind?_modify t (fun _ ↦ by rfl) m.id j)

/-- **Classifying a run** of a node that has nothing inside yet. -/
theorem level_run {t t' : NodeTree} (h : t.Level) (hforest : LayoutForest t)
    (hnil : t.renderMembers parent = []) {o : ClassifyOutcome}
    (hok : run c t parent = .ok (o, t')) : t'.Level := by
  rcases run_cases hok with ⟨-, -, rfl⟩ | ⟨p, ids, s, hp, -, hall, rfl, rfl⟩
  · exact h
  have hplan := Plan.shaped_ofPending c p (t.lookup (t.pending parent))
  have hmarked := level_markOverlays c p (t.lookup (t.pending parent)) h
  have hsame : Confined (fun i ↦ i ∈ t.pending parent) t
      (markOverlays c t p (t.lookup (t.pending parent))) :=
    confined_markOverlays (fun m hm ↦ .inl (mem_lookup.1 hm).1) (.refl _ t)
  generalize markOverlays c t p (t.lookup (t.pending parent)) = marked at hall hmarked hsame
  have hleaves : ∀ i ∈ leavesOfAll (Plan.ofPending c p (t.lookup (t.pending parent))).members,
      marked.Stands i := fun i hi ↦ by
    have hrun := (List.mem_filter.1 ((mem_leaves_ofPending p).1 hi)).1
    have hstands : t.Stands i := by
      rcases hforest.kind?_of_mem hrun with hk | hk
      all_goals exact ⟨_, hk, by decide⟩
    exact hstands.of_kind? (hsame.kind?_eq hstands.lt_size)
  -- a node is not in its own run
  have hself : parent ∉ t.pending parent := fun hi ↦
    hforest.forest.not_inside_of_mem (List.mem_filter.1 hi).1 .refl
  have hlt := lt_size_of_get? hp
  refine level_realized (s := ⟨marked, .empty⟩) hplan.arrangement.level hplan.members hleaves
    (Nat.lt_of_lt_of_le hlt hsame.size_le) (fun hi ↦ hself ((mem_leaves_ofPending p).1 hi)) ?_ hall
    (level_realizeAll _ ⟨marked, .empty⟩ hplan.members hleaves hmarked hall) false
  exact (renderMembers_congr (hsame.others parent hlt hself)).trans hnil

/-- **Several runs**, each of which is classified once. -/
theorem level_runs {t t' : NodeTree} (h : t.Level) {settled : List NodeId}
    (harranged : Arranged [] settled t) {xs : List NodeId} (hnodup : xs.Nodup)
    (hxs : ∀ x ∈ xs, x ∉ settled ∧ ∃ k, t.kind? x = some k ∧ k ≠ .group ∧ k ≠ .host)
    {o : ClassifyOutcome} (hok : runs c t xs = .ok (o, t')) : t'.Level := by
  induction xs generalizing t settled o with
  | nil =>
    rw [runs] at hok
    obtain ⟨-, rfl⟩ := Prod.mk.inj (Except.ok.inj hok)
    exact h
  | cons x r ih =>
    obtain ⟨hx, hr⟩ := List.nodup_cons.1 hnodup
    obtain ⟨hnew, k, hk, hgroup, hhost⟩ := hxs x List.mem_cons_self
    obtain ⟨o₁, t₁, o₂, hfirst, hrest, -⟩ := runs_cons_cases hok
    obtain ⟨ds, t₃, hrun, harranged', hext, -⟩ := harranged.exists_run c hk hgroup hhost
    obtain ⟨-, rfl⟩ := Prod.mk.inj (Except.ok.inj (hfirst.symm.trans hrun))
    have hkind : t.kind? x ≠ some .group := fun hg ↦
      hgroup (Option.some.inj (hk.symm.trans hg))
    have hnil := harranged.renderMembers_eq_nil hnew hkind fun _ hmem ↦
      absurd hmem List.not_mem_nil
    refine ih (level_run h harranged.forest hnil hfirst) harranged' hr (fun y hy ↦ ?_) hrest
    obtain ⟨hnew', k', hk', hne⟩ := hxs y (List.mem_cons_of_mem _ hy)
    refine ⟨fun hmem ↦ ?_, k', hext.kind?_eq hk', hne⟩
    rcases List.mem_cons.1 hmem with rfl | hmem
    · exact hx hy
    · exact hnew' hmem

end Classify

end ViewCompiler
