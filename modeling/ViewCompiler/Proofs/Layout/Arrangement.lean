import ViewCompiler.Proofs.Layout.Placement
import ViewCompiler.Proofs.Layout.Sown

/-!
# Trees during classification

`Arranged moved settled t` is what holds of a tree while runs are classified, where `moved` are the
nodes that have been moved, with what they have been moved to, and `settled` those whose run has
been classified. What carries it is that every render parent has a reason (`Explained`): a node
renders in another one since it was moved there, or it is in the run of a settled node, or a group
in it, and renders in that node or in another group of the run. So a node has no render parent
before it is moved or the node whose run it is in is settled, and no node inside in the output
before it is settled itself or another node is moved to it.

Two steps that keep it are here: asking for a host (`Arranged.alloc`) and moving a node
(`Arranged.exists_relocate`). The third is the classification of a run. A node may be moved to any
node, itself and those inside it included. What is inside a node stays there in its place
(`NodeTree.Widened`), so that the members of a run come out in the order that has been decided on
(`NodeTree.Ordered`), whatever else is moved to the node whose run it is.
-/

namespace ViewCompiler

/-- Why a node renders in another one. -/
inductive Explained (moved : List (NodeId × NodeId)) (settled : List NodeId) (t : NodeTree)
    (c p : NodeId) : Prop
  /-- It was moved there. -/
  | moved (mem : (c, p) ∈ moved)
  /-- It is in the run of a settled node, or a group in it, and renders in that node or in an older
  group of the run. -/
  | settled (d : NodeId) (mem : d ∈ settled) (parent : t.documentParent? c = some d)
      (inner : t.kind? c = some .group ∧ p < c ∨ c ∈ t.layoutRun d)
      (outer : p = d ∨ t.kind? p = some .group ∧ t.documentParent? p = some d)

/-- What holds of a tree while runs are classified. -/
structure Arranged (moved : List (NodeId × NodeId)) (settled : List NodeId) (t : NodeTree) :
    Prop where
  forest : LayoutForest t
  top : ∀ i l, t.links? i = some l → l.kind.isTop = true →
    l.excluded = false ∧ l.documentParent = none
  settles : ∀ d ∈ settled, ∃ k, t.kind? d = some k ∧ k ≠ .group ∧ k ≠ .host
  moves : ∀ x p, (x, p) ∈ moved → t.renderParent? x = some p ∧
    t.kind? x ≠ some .group ∧ t.kind? x ≠ some .host
  mem_iff : ∀ p c, c ∈ t.renderMembers p ↔ t.renderParent? c = some p
  nodup : ∀ p, (t.renderMembers p).Nodup
  rendered : ∀ i, t.isRendered i = true ↔ t.isTop i = true ∨ ∃ p, t.renderParent? i = some p
  explained : ∀ c p, t.renderParent? c = some p → Explained moved settled t c p
  covered : ∀ d ∈ settled, ∀ c ∈ t.layoutRun d, ∃ p, t.renderParent? c = some p
  group : ∀ g, t.kind? g = some .group →
    (∃ p, t.renderParent? g = some p) ∧ 2 ≤ (t.renderMembers g).length ∧
      ∃ d ∈ settled, t.documentParent? g = some d

namespace NodeTree

variable {t t' : NodeTree}

theorem lt_size_of_documentParent? {i d : NodeId} (h : t.documentParent? i = some d) :
    i < t.size := by
  obtain ⟨l, hl, -⟩ := Option.bind_eq_some_iff.1 h
  exact lt_size_of_links? hl

theorem isTop_of_kind? {i : NodeId} {k : NodeKind} (h : t.kind? i = some k) :
    t.isTop i = k.isTop := by
  rw [isTop, h, Option.any_some]

theorem renderParent?_alloc (t : NodeTree) (kind : NodeKind) (tag : String) (i : NodeId) :
    (t.alloc kind tag).2.renderParent? i = t.renderParent? i := by
  rw [renderParent?, renderParent?, place_alloc]
  split
  · rw [place_eq_blank (Nat.le_of_eq (Eq.symm ‹_›))]
  · rfl

theorem renderMembers_alloc (t : NodeTree) (kind : NodeKind) (tag : String) (i : NodeId) :
    (t.alloc kind tag).2.renderMembers i = t.renderMembers i := by
  rw [renderMembers, renderMembers, place_alloc]
  split
  · rw [place_eq_blank (Nat.le_of_eq (Eq.symm ‹_›))]
  · rfl

theorem position_alloc (t : NodeTree) (kind : NodeKind) (tag : String) (i : NodeId) :
    (t.alloc kind tag).2.position i = t.position i := by
  rw [position_eq_place, position_eq_place, place_alloc]
  split
  · rw [place_eq_blank (Nat.le_of_eq (Eq.symm ‹_›))]
  · rfl

/-- What is inside a node stays there in its place, and more may come inside. -/
structure Widened (t t' : NodeTree) : Prop where
  members : ∀ o, (t.renderMembers o).Sublist (t'.renderMembers o)
  position : ∀ o, ∀ c ∈ t.renderMembers o, t'.position c = t.position c

theorem Widened.refl (t : NodeTree) : Widened t t := ⟨fun _ ↦ .refl _, fun _ _ _ ↦ rfl⟩

theorem Unmoved.widened (h : Unmoved t t') : Widened t t' :=
  ⟨fun o ↦ h.renderMembers o ▸ .refl _, fun _ c _ ↦ h.position c⟩

theorem widened_alloc (t : NodeTree) (kind : NodeKind) (tag : String) :
    Widened t (t.alloc kind tag).2 :=
  ⟨fun o ↦ renderMembers_alloc t kind tag o ▸ .refl _, fun _ c _ ↦ position_alloc t kind tag c⟩

theorem Attached.sublist_renderMembers {owner : NodeId} {ids : List NodeId}
    (h : Attached owner ids t t') (o : NodeId) :
    (t.renderMembers o).Sublist (t'.renderMembers o) := by
  rw [h.renderMembers]
  split
  · exact List.sublist_append_left _ _
  · exact .refl _

/-- Some nodes inside another one are in the order of their places. -/
structure Ordered (t : NodeTree) (o : NodeId) (l : List NodeId) : Prop where
  inside : l.Sublist (t.renderMembers o)
  sorted : l.Pairwise fun a b ↦ positionLE (t.position a) (t.position b) = true

namespace Ordered

variable {o : NodeId} {l : List NodeId}

theorem widen (h : t.Ordered o l) (hw : Widened t t') : t'.Ordered o l where
  inside := h.inside.trans (hw.members o)
  sorted := h.sorted.imp_of_mem fun ha hb hab ↦ by
    rwa [hw.position o _ (h.inside.subset ha), hw.position o _ (h.inside.subset hb)]

/-- **They come out in that order.** -/
theorem sublist_order (h : t.Ordered o l) : l.Sublist (t.order o) :=
  sublist_stableSort h.inside h.sorted

end Ordered

end NodeTree

namespace Extended

variable {t t' : NodeTree} (h : Extended t t')

include h

theorem kind?_eq_of_lt {i : NodeId} (hi : i < t.size) : t'.kind? i = t.kind? i := by
  rw [NodeTree.kind?, NodeTree.kind?, h.links i hi]

theorem kind?_eq {i : NodeId} {k : NodeKind} (hk : t.kind? i = some k) : t'.kind? i = some k :=
  (h.kind?_eq_of_lt (NodeTree.lt_size_of_kind? hk)).trans hk

theorem isTop_eq {i : NodeId} (hi : i < t.size) : t'.isTop i = t.isTop i := by
  rw [NodeTree.isTop, NodeTree.isTop, h.kind?_eq_of_lt hi]

theorem depthOf_eq {i : NodeId} (hi : i < t.size) : t'.depthOf i = t.depthOf i := by
  rw [NodeTree.depthOf, NodeTree.depthOf, h.links i hi]

theorem documentParent?_eq {i d : NodeId} (hd : t.documentParent? i = some d) :
    t'.documentParent? i = some d := by
  rw [NodeTree.documentParent?, h.links i (NodeTree.lt_size_of_documentParent? hd)]
  exact hd

end Extended

namespace Explained

variable {moved moved' : List (NodeId × NodeId)} {settled settled' : List NodeId}
  {t t' : NodeTree} {c p : NodeId}

/-- A reason stays one. -/
theorem mono (h : Explained moved settled t c p) (hext : Extended t t') (hmoved : moved ⊆ moved')
    (hsettled : settled ⊆ settled') : Explained moved' settled' t' c p := by
  cases h with
  | moved mem => exact .moved (hmoved mem)
  | settled d mem parent inner outer =>
    refine .settled d (hsettled mem) (hext.documentParent?_eq parent) ?_ ?_
    · rw [hext.layoutRun_eq]
      exact inner.imp_left fun hc ↦ ⟨hext.kind?_eq hc.1, hc.2⟩
    · exact outer.imp_right fun hp ↦ ⟨hext.kind?_eq hp.1, hext.documentParent?_eq hp.2⟩

end Explained

namespace Arranged

variable {moved : List (NodeId × NodeId)} {settled : List NodeId} {t t' : NodeTree}

/-- **Before classification** no node is placed. -/
theorem of_sown (h : Sown t) : Arranged [] [] t where
  forest := h.forest
  top := h.top
  settles _ hd := absurd hd List.not_mem_nil
  moves _ _ hx := absurd hx List.not_mem_nil
  mem_iff p c := by simp [NodeTree.renderMembers, NodeTree.renderParent?, h.place, Place.blank]
  nodup p := by simp [NodeTree.renderMembers, h.place, Place.blank]
  rendered i := by simp [NodeTree.isRendered, NodeTree.renderParent?, h.place, Place.blank]
  explained c p hc := absurd hc (by simp [NodeTree.renderParent?, h.place, Place.blank])
  covered _ hd := absurd hd List.not_mem_nil
  group g hg := by
    obtain ⟨l, hl, hkind⟩ := Option.map_eq_some_iff.1 hg
    exact absurd hkind (h.ungrouped g l hl)

/-- Nodes may be added if they are hosts. -/
theorem extend (h : Arranged moved settled t) (hext : Extended t t')
    (hhosts : ∀ i l, t.size ≤ i → t'.links? i = some l →
      l.kind = .host ∧ l.excluded = false ∧ l.documentParent = none)
    (hparent : ∀ i, t'.renderParent? i = t.renderParent? i)
    (hmembers : ∀ i, t'.renderMembers i = t.renderMembers i)
    (hrendered : ∀ i, t'.isRendered i = true ↔
      t.isRendered i = true ∨ t.size ≤ i ∧ t'.isTop i = true) :
    Arranged moved settled t' := by
  have hkind : ∀ {i k}, t'.kind? i = some k → k ≠ .host → t.kind? i = some k := by
    intro i k hk hne
    obtain ⟨l, hl, rfl⟩ := Option.map_eq_some_iff.1 hk
    rcases Nat.lt_or_ge i t.size with hi | hi
    · exact NodeTree.kind?_of_links? ((hext.links i hi).symm.trans hl)
    · exact absurd (hhosts i l hi hl).1 hne
  exact {
    forest := hext.layoutForest h.forest
    top := fun i l hl htop ↦ by
      rcases Nat.lt_or_ge i t.size with hlt | hge
      · exact h.top i l ((hext.links i hlt).symm.trans hl) htop
      · exact (hhosts i l hge hl).2
    settles := fun d hd ↦ by
      obtain ⟨k, hk, hkinds⟩ := h.settles d hd
      exact ⟨k, hext.kind?_eq hk, hkinds⟩
    moves := fun x p hx ↦ by
      obtain ⟨hp, hkinds⟩ := h.moves x p hx
      rw [hparent, hext.kind?_eq_of_lt (NodeTree.lt_size_of_renderParent? hp)]
      exact ⟨hp, hkinds⟩
    mem_iff := fun p c ↦ by
      rw [hmembers, hparent]
      exact h.mem_iff p c
    nodup := fun p ↦ by
      rw [hmembers]
      exact h.nodup p
    rendered := fun i ↦ by
      rw [hrendered, hparent, h.rendered]
      rcases Nat.lt_or_ge i t.size with hlt | hge
      · simp [hext.isTop_eq hlt, Nat.not_le.2 hlt]
      · have hnone : t.isTop i = false := by
          rw [NodeTree.isTop, NodeTree.kind?, NodeTree.links?_eq_none_iff.2 hge]
          rfl
        simp [hnone, hge, or_comm]
    explained := fun c p hc ↦
      (h.explained c p (hparent c ▸ hc)).mono hext (List.Subset.refl _) (List.Subset.refl _)
    covered := fun d hd c hc ↦ by
      rw [hparent]
      exact h.covered d hd c (hext.layoutRun_eq ▸ hc)
    group := fun g hg ↦ by
      obtain ⟨hp, hmany, d, hd, hd'⟩ := h.group g (hkind hg (by simp))
      rw [hparent, hmembers]
      exact ⟨hp, hmany, d, hd, hext.documentParent?_eq hd'⟩ }

theorem of_unmoved (h : Arranged moved settled t) (hu : NodeTree.Unmoved t t') :
    Arranged moved settled t' := by
  have hold : ∀ {i l}, t.size ≤ i → t'.links? i ≠ some l := fun hi hl ↦ by
    rw [hu.links, NodeTree.links?_eq_none_iff.2 hi] at hl
    exact absurd hl (by simp)
  refine h.extend hu.extended (fun i l hi hl ↦ absurd hl (hold hi)) hu.renderParent?
    hu.renderMembers fun i ↦ ?_
  rw [hu.isRendered]
  refine ⟨.inl, fun hi ↦ hi.resolve_right ?_⟩
  rintro ⟨hle, htop⟩
  obtain ⟨l, hl, -⟩ := NodeTree.isTop_iff.1 htop
  exact hold hle hl

/-- **A new host** is outside of everything. -/
theorem alloc (h : Arranged moved settled t) (tag : String) :
    Arranged moved settled (t.alloc .host tag).2 := by
  refine h.extend (t.extended_alloc .host tag) (fun i l hi hl ↦ ?_)
    (NodeTree.renderParent?_alloc t .host tag) (NodeTree.renderMembers_alloc t .host tag)
    fun i ↦ ?_
  · rw [NodeTree.links?_alloc] at hl
    split at hl
    · rw [← Option.some.inj hl]
      exact ⟨rfl, rfl, rfl⟩
    · rw [NodeTree.links?_eq_none_iff.2 hi] at hl
      exact absurd hl (by simp)
  · rw [NodeTree.isRendered, NodeTree.place_alloc, NodeTree.isTop, NodeTree.kind?,
      NodeTree.links?_alloc]
    split
    · rename_i hi
      exact ⟨fun _ ↦ .inr ⟨Nat.le_of_eq hi.symm, rfl⟩, fun _ ↦ rfl⟩
    · refine ⟨.inl, fun hi ↦ hi.resolve_right ?_⟩
      rintro ⟨hle, htop⟩
      rw [NodeTree.links?_eq_none_iff.2 hle] at htop
      exact absurd htop (by simp)

theorem excluded_of_isTop (h : Arranged moved settled t) {i : NodeId} {k : NodeKind}
    (hi : t.kind? i = some k) (hk : k.isTop = true) (l : Links) (hl : t.links? i = some l) :
    l.excluded = false := by
  rw [NodeTree.kind?_of_links? hl] at hi
  exact (h.top i l hl (Option.some.inj hi ▸ hk)).1

theorem documentParent?_of_isTop (h : Arranged moved settled t) {i : NodeId} {k : NodeKind}
    (hi : t.kind? i = some k) (hk : k.isTop = true) : t.documentParent? i = none := by
  obtain ⟨l, hl, rfl⟩ := Option.map_eq_some_iff.1 hi
  rw [NodeTree.documentParent?, hl]
  exact (h.top i l hl hk).2

/-- A node has no render parent before it is moved or the node whose run it is in is settled. -/
theorem renderParent_eq_none (h : Arranged moved settled t) {x : NodeId}
    (hmoved : ∀ p, (x, p) ∉ moved)
    (hparent : ∀ d, t.documentParent? x = some d → d ∉ settled) : t.renderParent? x = none := by
  refine Option.eq_none_iff_forall_ne_some.2 fun p hp ↦ ?_
  cases h.explained x p hp with
  | moved mem => exact hmoved p mem
  | settled d mem parent _ _ => exact hparent d parent mem

/-- A node that is not settled has nothing inside, unless something is moved to it. -/
theorem renderMembers_eq_nil (h : Arranged moved settled t) {x : NodeId} (hx : x ∉ settled)
    (hgroup : t.kind? x ≠ some .group) (hmoved : ∀ c, (c, x) ∉ moved) :
    t.renderMembers x = [] := by
  refine List.eq_nil_iff_forall_not_mem.2 fun c hc ↦ ?_
  cases h.explained c x ((h.mem_iff x c).1 hc) with
  | moved mem => exact hmoved c mem
  | settled d mem _ _ outer =>
    rcases outer with rfl | ⟨hkind, -⟩
    · exact hx mem
    · exact hgroup hkind

/-- The members of a run that are not pending have their place. -/
theorem placed_of_not_mem_pending (h : Arranged moved settled t) {x c : NodeId}
    (hc : c ∈ t.layoutRun x) (hpending : c ∉ t.pending x) : ∃ p, t.renderParent? c = some p := by
  obtain ⟨l, hl, -, -, -, hexcluded, hk⟩ := h.forest.member hc
  cases hrendered : t.isRendered c with
  | true =>
    refine ((h.rendered c).1 hrendered).resolve_left ?_
    rw [NodeTree.isTop_of_kind? (NodeTree.kind?_of_links? hl)]
    rcases hk with hk | hk <;> simp [hk, NodeKind.isTop]
  | false =>
    exact absurd (List.mem_filter.2 ⟨hc, by simp [hl, hexcluded, hrendered]⟩) hpending

/-- The pending members of a run can be given a place. -/
theorem open_pending (h : Arranged moved settled t) (x : NodeId) :
    Classify.Open t (t.pending x) := by
  refine ⟨(h.forest.nodup x).sublist List.filter_sublist, fun i hi ↦
    ⟨NodeTree.lt_size_of_mem_pending hi, Option.eq_none_iff_forall_ne_some.2 fun p hp ↦ ?_⟩⟩
  have hrendered := (h.rendered i).2 (.inr ⟨p, hp⟩)
  simpa [hrendered] using (List.mem_filter.1 hi).2

/-- A node that renders nowhere is moved: that is where it renders, and nothing else changes. -/
theorem relocated (h : Arranged moved settled t) {x p : NodeId} {k : NodeKind}
    (hkind : t.kind? x = some k) (hgroup : k ≠ .group) (hhost : k ≠ .host)
    (hnone : t.renderParent? x = none) (hattached : NodeTree.Attached p [x] t t') :
    Arranged ((x, p) :: moved) settled t' := by
  have hext : Extended t t' := .of_links hattached.links
  have hkinds : ∀ i, t'.kind? i = t.kind? i := fun i ↦ by
    rw [NodeTree.kind?, NodeTree.kind?, hattached.links]
  have hparent : ∀ c q, t'.renderParent? c = some q ↔
      c = x ∧ q = p ∨ t.renderParent? c = some q := by
    intro c q
    rw [hattached.renderParent?]
    by_cases hc : c = x
    · rw [hc, hnone]
      simp [eq_comm]
    · simp [hc]
  have hmono : ∀ {c}, (∃ q, t.renderParent? c = some q) → ∃ q, t'.renderParent? c = some q := by
    rintro c ⟨q, hq⟩
    exact ⟨q, (hparent c q).2 (.inr hq)⟩
  exact {
    forest := hext.layoutForest h.forest
    top := fun i l hl ↦ h.top i l ((hattached.links i).symm.trans hl)
    settles := fun d hd ↦ by
      rw [hkinds]
      exact h.settles d hd
    moves := fun y q hy ↦ by
      rw [hkinds, hparent]
      rcases List.mem_cons.1 hy with heq | hy
      · obtain ⟨rfl, rfl⟩ := Prod.mk.inj heq
        rw [hkind]
        exact ⟨.inl ⟨rfl, rfl⟩, by simpa using hgroup, by simpa using hhost⟩
      · obtain ⟨hq, hrest⟩ := h.moves y q hy
        exact ⟨.inr hq, hrest⟩
    mem_iff := fun q c ↦ by
      rw [hparent, ← h.mem_iff, hattached.renderMembers]
      by_cases hq : q = p <;> simp [hq, or_comm]
    nodup := fun q ↦ by
      rw [hattached.renderMembers]
      split
      · refine (h.nodup q).append (List.nodup_singleton x) fun c hc hc' ↦ ?_
        rw [List.mem_singleton.1 hc', h.mem_iff, hnone] at hc
        exact absurd hc (by simp)
      · exact h.nodup q
    rendered := fun i ↦ by
      rw [hattached.isRendered, h.rendered, NodeTree.isTop, NodeTree.isTop, hkinds]
      simp only [hparent, exists_or, exists_and_left, exists_eq, and_true, List.mem_singleton]
      exact or_left_comm
    explained := fun c q hc ↦ by
      rcases (hparent c q).1 hc with ⟨rfl, rfl⟩ | hc
      · exact .moved List.mem_cons_self
      · exact (h.explained c q hc).mono hext (List.subset_cons_self _ _) (List.Subset.refl _)
    covered := fun d hd c hc ↦ hmono (h.covered d hd c (hext.layoutRun_eq ▸ hc))
    group := fun g hg ↦ by
      obtain ⟨hq, hmany, hd⟩ := h.group g (hkinds g ▸ hg)
      rw [NodeTree.documentParent?, hattached.links]
      exact ⟨hmono hq, Nat.le_trans hmany (hattached.sublist_renderMembers g).length_le, hd⟩ }

/-- **A node is moved**, to any node that there is. -/
theorem exists_relocate (h : Arranged moved settled t) {x p : NodeId} {k : NodeKind}
    (hkind : t.kind? x = some k) (hgroup : k ≠ .group) (hhost : k ≠ .host)
    (hnone : t.renderParent? x = none) (hp : p < t.size) :
    ∃ t', t.relocate x p = .ok t' ∧ Arranged ((x, p) :: moved) settled t' ∧
      (∀ i, t'.links? i = t.links? i) ∧ NodeTree.Widened t t' := by
  obtain ⟨t', hok, hattached, hposition⟩ :=
    NodeTree.exists_relocate (NodeTree.lt_size_of_kind? hkind) hp hnone
  refine ⟨t', hok, h.relocated hkind hgroup hhost hnone hattached, hattached.links,
    hattached.sublist_renderMembers, fun _ c _ ↦ ?_⟩
  by_cases hc : c = x
  · rw [hc, hposition]
  · exact hattached.position c fun hmem ↦ hc (List.mem_singleton.1 hmem)

/-- **A node without a run to place** is settled as the tree is. -/
theorem settle (h : Arranged moved settled t) {x : NodeId} {k : NodeKind}
    (hkind : t.kind? x = some k) (hgroup : k ≠ .group) (hhost : k ≠ .host)
    (hpending : t.pending x = []) : Arranged moved (x :: settled) t :=
  { h with
    settles := fun d hd ↦ by
      rcases List.mem_cons.1 hd with rfl | hd
      · exact ⟨k, hkind, hgroup, hhost⟩
      · exact h.settles d hd
    explained := fun c p hc ↦ (h.explained c p hc).mono (.of_links fun _ ↦ rfl)
      (List.Subset.refl _) (List.subset_cons_self _ _)
    covered := fun d hd c hc ↦ by
      rcases List.mem_cons.1 hd with rfl | hd
      · exact h.placed_of_not_mem_pending hc (by simp [hpending])
      · exact h.covered d hd c hc
    group := fun g hg ↦ by
      obtain ⟨hp, hmany, d, hd, hparent⟩ := h.group g hg
      exact ⟨hp, hmany, d, List.mem_cons_of_mem _ hd, hparent⟩ }

end Arranged

end ViewCompiler
