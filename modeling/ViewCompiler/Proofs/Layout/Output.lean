import ViewCompiler.Convert.Targets
import ViewCompiler.Proofs.Layout.Arrangement

/-!
# The output of an arranged tree

In an arranged tree a node renders in one other node at most (`Arranged.eq_of_mem_order`), so that
outermost nodes have outlines that have nothing in common. A member of a run is inside the node
whose run it is in, directly or through groups (`Arranged.inside_member`), unless it is moved.

The walk over the output lists an outline in any tree (`NodeTree.renderSubtree_eq`), and the nodes
in the output of some nodes are those in their outlines (`NodeTree.renderedBelow_eq`).
-/

namespace ViewCompiler

namespace NodeTree

variable {t : NodeTree}

theorem descendRender_nil (fuel : Nat) (seen : List NodeId) :
    t.descendRender fuel seen [] = .ok seen.reverse := by
  unfold descendRender
  rfl

theorem descendRender_cons {fuel : Nat} {seen stack : List NodeId} {i : NodeId}
    (hseen : seen.contains i = false) (hi : i < t.size) :
    t.descendRender (fuel + 1) seen (i :: stack) =
      t.descendRender fuel (i :: seen) (t.order i ++ stack) := by
  have hdrop : (i :: stack).dropWhile seen.contains = i :: stack :=
    List.dropWhile_cons_of_neg (by rw [hseen]; exact Bool.false_ne_true)
  rw [descendRender.eq_def]
  simp [hdrop, renderOrder_eq hi]

/-- **The walk over the output lists an outline.** -/
theorem renderSubtree_eq {o : Outline} (ho : o.Follows t.order) (hnodup : o.ids.Nodup)
    (hlt : ∀ i ∈ o.ids, i < t.size) : t.renderSubtree o.id = .ok o.ids :=
  Outline.walk_root descendRender_nil descendRender_cons ho hnodup hlt

/-- **The nodes in the output of some nodes** are those in their outlines. -/
theorem renderedBelow_eq {targets : List Target} {seen : List NodeId} {os : List Outline}
    (hos : ∀ o ∈ os, o.Follows t.order) (hids : os.map Outline.id = targets.map DocumentEntry.root)
    (hlt : ∀ i ∈ os.flatMap Outline.ids, i < t.size)
    (hnodup : (seen ++ os.flatMap Outline.ids).Nodup) :
    t.renderedBelow seen targets = .ok (seen ++ os.flatMap Outline.ids) := by
  induction targets generalizing seen os with
  | nil =>
    obtain rfl := List.map_eq_nil_iff.1 hids
    rw [renderedBelow, List.flatMap_nil, List.append_nil]
  | cons target r ih =>
    match os with
    | [] => exact absurd hids (by simp)
    | o :: os =>
      obtain ⟨hroot, hrest⟩ := List.cons.inj hids
      rw [List.flatMap_cons] at hlt
      rw [List.flatMap_cons, ← List.append_assoc] at hnodup ⊢
      obtain ⟨-, ho, hdisjoint⟩ := List.nodup_append'.1 (List.nodup_append'.1 hnodup).1
      have hnew : appendNew seen o.ids = seen ++ o.ids := by
        rw [appendNew, List.filter_eq_self.2 fun i hi ↦ by simpa using fun hs ↦ hdisjoint hs hi]
      rw [renderedBelow, ← hroot, renderSubtree_eq (hos o List.mem_cons_self) ho fun i hi ↦
        hlt i (List.mem_append_left _ hi)]
      change t.renderedBelow (appendNew seen o.ids) r = _
      rw [hnew]
      exact ih (fun o' ho' ↦ hos o' (List.mem_cons_of_mem _ ho')) hrest
        (fun i hi ↦ hlt i (List.mem_append_right _ hi)) hnodup

end NodeTree

namespace Arranged

open NodeTree

variable {moved : List (NodeId × NodeId)} {settled : List NodeId} {t : NodeTree}
  (h : Arranged moved settled t)

include h

theorem lt_size_of_mem_order {p c : NodeId} (hc : c ∈ t.order p) : c < t.size :=
  lt_size_of_renderParent? ((h.mem_iff p c).1 (mem_order.1 hc))

/-- A node renders in one other node at most. -/
theorem eq_of_mem_order {p q c : NodeId} (hp : c ∈ t.order p) (hq : c ∈ t.order q) : p = q :=
  Option.some.inj (((h.mem_iff _ _).1 (mem_order.1 hp)).symm.trans
    ((h.mem_iff _ _).1 (mem_order.1 hq)))

/-- A group is inside the node whose run it is in: its render parent is that node or an older group
of the run. -/
theorem inside_group {d g : NodeId} (hg : t.kind? g = some .group)
    (hd : t.documentParent? g = some d) : Inside t.order d g := by
  induction g using Nat.strongRecOn with
  | ind g ih =>
    obtain ⟨⟨p, hp⟩, -⟩ := h.group g hg
    have hmem : g ∈ t.order p := mem_order.2 ((h.mem_iff p g).2 hp)
    cases h.explained g p hp with
    | moved mem => exact absurd hg (h.moves g p mem).2.1
    | settled d' _ parent inner outer =>
      obtain rfl := Option.some.inj (hd.symm.trans parent)
      rcases outer with rfl | ⟨hgroup, hparent⟩
      · exact .single hmem
      · rcases inner with ⟨-, hlt⟩ | hrun
        · exact (ih p hlt hgroup hparent).tail hmem
        · rcases h.forest.kind?_of_mem hrun with hk | hk <;>
            exact absurd (hk.symm.trans hg) (by decide)

/-- **A member of a run is inside the node whose run it is in**, unless it has been moved. -/
theorem inside_member {d c p : NodeId} (hp : t.renderParent? c = some p)
    (hd : t.documentParent? c = some d) (hmoved : ∀ q, (c, q) ∉ moved) : Inside t.order d c := by
  have hmem : c ∈ t.order p := mem_order.2 ((h.mem_iff p c).2 hp)
  cases h.explained c p hp with
  | moved mem => exact absurd mem (hmoved p)
  | settled d' _ parent _ outer =>
    obtain rfl := Option.some.inj (hd.symm.trans parent)
    rcases outer with rfl | ⟨hgroup, hparent⟩
    · exact .single hmem
    · exact (h.inside_group hgroup hparent).tail hmem

/-- **Nothing strange is inside a root**: if no node is moved, what is inside in the output is
inside in the layout, or is a group in the run of a node that is. -/
theorem inside_origin (hmoved : ∀ x p, (x, p) ∉ moved) {root n : NodeId}
    (hroot : t.kind? root = some .root) (hn : Inside t.order root n) :
    Inside t.layoutRun root n ∨
      t.kind? n = some .group ∧ ∃ d, t.documentParent? n = some d ∧ Inside t.layoutRun root d := by
  have hgroup : ∀ {i}, Inside t.layoutRun root i → t.kind? i ≠ some .group := by
    intro i hi hkind
    obtain ⟨k, hk, hne, -⟩ := h.forest.kind?_of_inside hroot hi
    exact hne (Option.some.inj (hk.symm.trans hkind))
  induction hn with
  | refl => exact .inl .refl
  | @tail p c hp hc ih =>
    cases h.explained c p ((h.mem_iff p c).1 (mem_order.1 hc)) with
    | moved mem => exact absurd mem (hmoved c p)
    | settled d mem parent inner outer =>
      have hd : Inside t.layoutRun root d := by
        rcases outer with rfl | ⟨hkind, hparent⟩
        · obtain ⟨k, hk, hne, -⟩ := h.settles p mem
          exact ih.resolve_right fun hright ↦ hne (Option.some.inj (hk.symm.trans hright.1))
        · rcases ih with hin | ⟨-, d', hparent', hin⟩
          · exact absurd hkind (hgroup hin)
          · obtain rfl := Option.some.inj (hparent.symm.trans hparent')
            exact hin
      rcases inner with ⟨hkind, -⟩ | hrun
      · exact .inr ⟨hkind, d, parent, hd⟩
      · exact .inl (hd.tail hrun)

/-- **Groups aside, a node is around its run**: if no node is moved, the nearest node around another
one that is no group is its layout parent. -/
theorem find?_upward (hmoved : ∀ x p, (x, p) ∉ moved) {i p : NodeId} {l : List NodeId}
    (hup : Upward t.renderParent? i l) (hp : t.renderParent? i = some p) :
    ∃ d, t.documentParent? i = some d ∧
      l.tail.find? (fun j ↦ t.kind? j ≠ some .group) = some d := by
  induction hup generalizing p with
  | last top => exact absurd (top.symm.trans hp) (by simp)
  | @step i q l next above ih =>
    obtain rfl := Option.some.inj (next.symm.trans hp)
    cases h.explained i q next with
    | moved mem => exact absurd mem (hmoved i q)
    | settled d mem parent _ outer =>
      refine ⟨d, parent, ?_⟩
      rw [List.tail_cons, above.cons_tail]
      rcases outer with rfl | ⟨hkind, hparent⟩
      · obtain ⟨k, hk, hne, -⟩ := h.settles q mem
        exact List.find?_cons_of_pos (by simpa [hk] using hne)
      · obtain ⟨⟨q', hq'⟩, -⟩ := h.group q hkind
        obtain ⟨d', hd', hfind⟩ := ih hq'
        obtain rfl := Option.some.inj (hparent.symm.trans hd')
        rw [List.find?_cons_of_neg (by simp [hkind])]
        exact hfind

theorem lt_size_of_inside {p x : NodeId} (hp : p < t.size) (hx : Inside t.order p x) :
    x < t.size := by
  rcases Relation.ReflTransGen.cases_tail hx with rfl | ⟨q, -, hq⟩
  · exact hp
  · exact h.lt_size_of_mem_order hq

end Arranged

end ViewCompiler
