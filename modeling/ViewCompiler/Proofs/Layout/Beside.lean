import ViewCompiler.Proofs.Layout.Renumbered
import ViewCompiler.Proofs.Layout.Sprouting

/-!
# Documents beside others

The main statement is `Sprouted.exists_renumbered`. Some documents are classified alone, or with
others that have been made into nodes after them. The nodes of the first documents and their groups
are then the same in both trees, except that groups have other numbers.

There are two phases in the second tree. While the first documents are classified, what is done is
the same in both trees (`Spaced`). While the others are, nothing changes outside of these
(`Confined`), since they do not refer to nodes of the first documents.
-/

namespace ViewCompiler

open NodeTree

namespace Sprouted

variable {t t' : NodeTree}

/-- Nodes that refer to the same nodes as before. -/
theorem of_map {u u' : NodeTree} {f : Node → Node} (h : Sprouted t t')
    (hf : ∀ n, (f n).refs = n.refs) (hu : ∀ i, u.get? i = (t.get? i).map f)
    (hu' : ∀ i, u'.get? i = (t'.get? i).map f) : Sprouted u u' := by
  have hsize : ∀ {t u : NodeTree}, (∀ i, u.get? i = (t.get? i).map f) → u.size = t.size := by
    intro t u hu
    refine Nat.le_antisymm (get?_eq_none_iff.1 ?_) (get?_eq_none_iff.1 ?_)
    · rw [hu, get?_eq_none_iff.2 (Nat.le_refl _)]
      rfl
    · rw [← Option.map_eq_none_iff (f := f), ← hu]
      exact get?_eq_none_iff.2 (Nat.le_refl _)
  refine ⟨?_, fun i hi ↦ ?_, fun i n hi hn ↦ ?_⟩
  · rw [hsize hu, hsize hu']
    exact h.size_le
  · rw [hu, hu', h.old i (hsize hu ▸ hi)]
  · rw [hu'] at hn
    obtain ⟨m, hm, rfl⟩ := Option.map_eq_some_iff.1 hn
    rw [hf, hsize hu, hsize hu']
    exact h.new i m (hsize hu ▸ hi) hm

/-- **Before classification** no node has a place, so that the numbers do not matter. -/
theorem spaced (h : Sprouted t t') (hs : Sown t) : Spaced t.size (t'.size - t.size) t t' where
  size_le := Nat.le_refl _
  size_eq := (Nat.add_sub_of_le h.size_le).symm
  get? i := by
    rcases Nat.lt_or_ge i t.size with hi | hi
    · obtain ⟨m, hm⟩ := exists_get? hi
      have hid : m.id = i := id_of_get? hm
      have hplace : m.place = { Place.blank with rendered := t.isTop i } :=
        (place_of_get? hm).symm.trans (hs.place i)
      rw [skip_of_lt _ hi, h.old i hi, hm, Option.map_some, Node.renumber_eq_self]
      · rw [hid, skip_of_lt _ hi]
      · exact ⟨(congrArg Place.renderParent hplace :), (congrArg Place.renderChildren hplace :)⟩
    · rw [skip_of_le _ hi, get?_eq_none_iff.2 hi, get?_eq_none_iff.2]
      · rfl
      · rw [← Nat.sub_le_iff_le_add, Nat.sub_sub_self h.size_le]
        exact hi

/-- What is inside a node of the later documents. -/
theorem layoutRun_bounds (h : Sprouted t t') {x i : Nat} (hx : t.size ≤ x)
    (hi : i ∈ t'.layoutRun x) : t.size ≤ i ∧ i < t'.size := by
  cases hm : t'.get? x with
  | none =>
    rw [layoutRun, links?_eq_none_iff.2 (get?_eq_none_iff.1 hm)] at hi
    exact absurd hi List.not_mem_nil
  | some m =>
    rw [layoutRun_of_get? hm] at hi
    exact h.new x m hx hm i (Node.mem_refs.2 (.inr (.inr (.inr (.inr hi)))))

theorem inside_bounds (h : Sprouted t t') {root x : Nat} (hroot : t.size ≤ root)
    (hlt : root < t'.size) (hx : Inside t'.layoutRun root x) : t.size ≤ x ∧ x < t'.size := by
  induction hx with
  | refl => exact ⟨hroot, hlt⟩
  | tail _ hc ih => exact h.layoutRun_bounds ih.1 hc

/-! ### The two phases -/

variable {roots roots' : List NodeId}

/-- **The order of the first documents** is the same. -/
theorem parentOrder_eq (h : Sprouted t t') (hs : Sown t) (hs' : Sown t')
    (hroots : ∀ root ∈ roots, t.kind? root = some .root) :
    t'.parentOrder roots = t.parentOrder roots := by
  refine List.flatMap_congr fun root hroot ↦ ?_
  have hlt := lt_size_of_kind? (hroots root hroot)
  rw [hs.forest.classificationOrder_congr hs'.forest hlt (Nat.lt_of_lt_of_le hlt h.size_le)]
  intro i hi
  rw [links?, links?, h.old i (hs.forest.lt_size_of_inside hlt hi)]

/-- Of the first documents no node of the others is classified. -/
theorem mem_parentOrder_lt (hs : Sown t) (hroots : ∀ root ∈ roots, t.kind? root = some .root) :
    ∀ x ∈ t.parentOrder roots, x < t.size ∧ ∀ i ∈ t.layoutRun x, i < t.size := fun x hx ↦ by
  obtain ⟨k, hk, -⟩ := hs.kind?_of_mem_parentOrder hroots hx
  exact ⟨lt_size_of_kind? hk, fun i hi ↦ hs.forest.lt_size hi⟩

/-- Of the other documents no node of the first is. -/
theorem mem_parentOrder_bounds (h : Sprouted t t') (hs' : Sown t')
    (hroots' : ∀ root ∈ roots', t.size ≤ root ∧ t'.kind? root = some .root) :
    ∀ x ∈ t'.parentOrder roots', (t.size ≤ x ∧ x < t'.size) ∧
      ∀ i ∈ t'.layoutRun x, t.size ≤ i ∧ i < t'.size := fun x hx ↦ by
  obtain ⟨root, hroot, hin, -⟩ :=
    (hs'.mem_parentOrder fun root hroot ↦ (hroots' root hroot).2).1 hx
  have hbounds := h.inside_bounds (hroots' root hroot).1
    (lt_size_of_kind? (hroots' root hroot).2) hin
  exact ⟨hbounds, fun i hi ↦ h.layoutRun_bounds hbounds.1 hi⟩

open Classify

/-- What holds after the first documents have been classified in both trees, and the others in the
second one. -/
structure Classified (t t' t₁ t₂ : NodeTree) : Prop where
  arranged : ∃ settled, Arranged [] settled t₁
  level : t₁.Level
  made : Confined (fun _ ↦ True) t t₁
  made' : Confined (fun _ ↦ True) t' t₂
  nodes : ∀ i m, t₁.get? i = some m →
    t₂.get? (skip t.size (t'.size - t.size) i) =
      some (m.renumber (skip t.size (t'.size - t.size)))

theorem exists_classified (c : LayoutConfig) (h : Sprouted t t') (hs : Sown t) (hs' : Sown t')
    (hroots : ∀ root ∈ roots, t.kind? root = some .root) (hnodup : roots.Nodup)
    (hroots' : ∀ root ∈ roots', t.size ≤ root ∧ t'.kind? root = some .root) :
    ∃ o t₁ o' t₂, runs c t (t.parentOrder roots) = .ok (o, t₁) ∧
      runs c t' (t'.parentOrder (roots ++ roots')) = .ok (o', t₂) ∧ Classified t t' t₁ t₂ := by
  have hkinds : ∀ x ∈ t.parentOrder roots, ∃ k, t.kind? x = some k ∧ k ≠ .group ∧ k ≠ .host :=
    fun x hx ↦ hs.kind?_of_mem_parentOrder hroots hx
  have hkinds' : ∀ x ∈ t'.parentOrder (roots ++ roots'),
      ∃ k, t'.kind? x = some k ∧ k ≠ .group ∧ k ≠ .host := fun x hx ↦ by
    refine hs'.kind?_of_mem_parentOrder (fun root hroot ↦ ?_) hx
    rcases List.mem_append.1 hroot with hroot | hroot
    · have hk := hroots root hroot
      rw [kind?, links?, h.old root (lt_size_of_kind? hk)]
      exact hk
    · exact (hroots' root hroot).2
  obtain ⟨o, t₁, hok, harranged, -⟩ := (Arranged.of_sown hs).exists_runs c hkinds
  obtain ⟨o', t₂, hok', -⟩ := (Arranged.of_sown hs').exists_runs c hkinds'
  have hall := hok'
  rw [parentOrder_append, h.parentOrder_eq hs hs' hroots] at hall
  obtain ⟨o₁, u, o₂, hfirst, hlater⟩ := exists_runs_append hall
  -- the first phase is the same in both trees
  obtain ⟨o₃, t₃, o₄, u', hspaced, hspaced', hsame⟩ :=
    spaced_runs c (h.spaced hs) (mem_parentOrder_lt hs hroots)
  obtain ⟨-, rfl⟩ := Prod.mk.inj (Except.ok.inj (hok.symm.trans hspaced))
  obtain ⟨-, rfl⟩ := Prod.mk.inj (Except.ok.inj (hfirst.symm.trans hspaced'))
  have hmade := confined_anywhere hok
  have hmade' := confined_anywhere hok'
  have hmiddle := confined_anywhere hfirst
  -- the second phase changes no node that the first tree has
  have hothers := confined_runs (P := fun i ↦ t.size ≤ i ∧ i < t'.size) (fun x hx ↦ by
    rw [hmiddle.layoutRun_eq]
    exact h.mem_parentOrder_bounds hs' hroots' x hx) hlater
  have hlevel : t.Level := fun p _ i hi ↦ by
    rw [renderMembers, hs.place] at hi
    exact absurd hi List.not_mem_nil
  refine ⟨o, t₁, o', t₂, hok, hok', ⟨_, harranged⟩, ?_, hmade, hmade', fun i m hm ↦ ?_⟩
  · exact level_runs hlevel (Arranged.of_sown hs) (hs.nodup_parentOrder hroots hnodup)
      (fun x hx ↦ ⟨List.not_mem_nil, hkinds x hx⟩) hok
  · have hm' := hsame.get? i
    rw [hm, Option.map_some] at hm'
    rw [← hm']
    refine hothers.others _ (lt_size_of_get? hm') fun hpart ↦ ?_
    refine skip_not_between t.size (t'.size - t.size) i ⟨hpart.1, ?_⟩
    rw [Nat.add_sub_of_le h.size_le]
    exact hpart.2

namespace Classified

variable {t₁ t₂ : NodeTree} (hc : Classified t t' t₁ t₂)

include hc

/-- A node that is no group has been there before. -/
theorem lt_of_stands {i : NodeId} (hi : t₁.Stands i) : i < t.size := by
  refine Nat.lt_of_not_le fun hge ↦ ?_
  obtain ⟨m, hm⟩ := exists_get? hi.lt_size
  obtain ⟨k, hk, hne⟩ := hi
  rw [kind?, links?_of_get? hm] at hk
  exact hne ((Option.some.inj hk).symm.trans (hc.made.groups i m hge hm).2.2)

/-- A label in the first tree is for a node of the first documents. -/
theorem companion_lt (ht : Sprouted .empty t) {i j : NodeId} {m : Node} (hm : t₁.get? i = some m)
    (hj : m.companion = some j) : i < t.size ∧ j < t.size := by
  rcases Nat.lt_or_ge i t.size with hi | hi
  · obtain ⟨m₀, hm₀, hsame⟩ := hc.made.exists_of_lt hi hm
    rw [(Confined.groups_of_undecided hsame).2.1] at hj
    exact ⟨hi, ht.refs_lt hm₀ j (Node.mem_refs.2 (.inr (.inr (.inl hj))))⟩
  · rw [(hc.made.groups i m hi hm).2.1] at hj
    exact absurd hj (by simp)

/-- A label in the second tree is in the first one, or it is for a node of the other documents. -/
theorem companion_cases (ht : Sprouted .empty t) (h : Sprouted t t') {i j : NodeId} {m : Node}
    (hm : t₂.get? i = some m) (hj : m.companion = some j) :
    (j < t.size ∧ ∃ m, t₁.get? i = some m ∧ m.companion = some j) ∨
      t.size ≤ j ∧ j < t'.size := by
  rcases Nat.lt_or_ge i t'.size with hi' | hi'
  · obtain ⟨m', hm', hsame⟩ := hc.made'.exists_of_lt hi' hm
    rw [(Confined.groups_of_undecided hsame).2.1] at hj
    have href : j ∈ m'.refs := Node.mem_refs.2 (.inr (.inr (.inl hj)))
    rcases Nat.lt_or_ge i t.size with hi | hi
    · rw [h.old i hi] at hm'
      obtain ⟨m₁, hm₁, hsame⟩ := hc.made.exists_undecided hm'
      exact .inl ⟨ht.refs_lt hm' j href, m₁, hm₁,
        (Confined.groups_of_undecided hsame).2.1.trans hj⟩
    · exact .inr (h.new i m' hi hm' j href)
  · rw [(hc.made'.groups i m hi' hm).2.1] at hj
    exact absurd hj (by simp)

/-- **The nodes of the first documents**, with their groups, are the same in both trees. -/
theorem renumbered (ht : Sprouted .empty t) (h : Sprouted t t') :
    Renumbered (skip t.size (t'.size - t.size)) t₁ t₂ := by
  obtain ⟨settled, harranged⟩ := hc.arranged
  refine ⟨fun _ _ ↦ skip_inj.1, fun i m hm ↦ ⟨m.renderDepth, hc.nodes i m hm⟩, fun i p hp ↦ ?_,
    fun i j hj ↦ ?_, fun i p hp hcontainer ↦ ?_, fun i m j hm hj ↦ ?_, fun i hi j m hm hj ↦ ?_⟩
  · refine Nat.lt_of_not_le fun hge ↦ ?_
    have hmem := (harranged.mem_iff p i).2 hp
    rw [renderMembers, place_eq_blank hge] at hmem
    exact absurd hmem List.not_mem_nil
  · exact lt_size_of_renderParent? ((harranged.mem_iff i j).1 hj)
  · exact skip_of_lt _ (hc.lt_of_stands (hc.level p hcontainer i ((harranged.mem_iff p i).2 hp)))
  · obtain ⟨-, hlt⟩ := hc.companion_lt ht hm hj
    exact ⟨Nat.lt_of_lt_of_le hlt hc.made.size_le, skip_of_lt _ hlt⟩
  · rcases hc.companion_cases ht h hm hj with ⟨hlt, m₁, hm₁, hj₁⟩ | hbetween
    · refine ⟨j, m₁, hm₁, hj₁.trans (congrArg some ?_)⟩
      rcases Nat.lt_or_ge i t.size with hi | hi
      · exact skip_of_lt _ hi
      · rw [skip_of_le _ hi] at hlt
        exact absurd (Nat.le_trans hi (Nat.le_add_right _ _)) (Nat.not_le.2 hlt)
    · refine absurd ⟨hbetween.1, ?_⟩ (skip_not_between t.size (t'.size - t.size) i)
      rw [Nat.add_sub_of_le h.size_le]
      exact hbetween.2

end Classified

/-- **Documents are classified alone or beside others**, and come to the same. -/
theorem exists_renumbered (c : LayoutConfig) (ht : Sprouted .empty t) (h : Sprouted t t')
    (hs : Sown t) (hs' : Sown t') (hroots : ∀ root ∈ roots, t.kind? root = some .root)
    (hnodup : roots.Nodup) (hroots' : ∀ root ∈ roots', t.size ≤ root ∧ t'.kind? root = some .root) :
    ∃ o t₁ o' t₂, runs c t (t.parentOrder roots) = .ok (o, t₁) ∧
      runs c t' (t'.parentOrder (roots ++ roots')) = .ok (o', t₂) ∧
      Renumbered (skip t.size (t'.size - t.size)) t₁ t₂ := by
  obtain ⟨o, t₁, o', t₂, hok, hok', hc⟩ := exists_classified c h hs hs' hroots hnodup hroots'
  exact ⟨o, t₁, o', t₂, hok, hok', hc.renumbered ht h⟩

end Sprouted

end ViewCompiler
