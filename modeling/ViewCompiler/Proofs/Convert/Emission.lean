import ViewCompiler.Proofs.Convert.Concluding
import ViewCompiler.Proofs.Layout.Output
import ViewCompiler.Proofs.Template.Placing

/-!
# Where nodes are emitted

After all documents have been decided on, the targets of the conversion are outermost nodes of the
output, and different ones (`Concluded.outermost`, `Concluded.nodup_targets`). The members of the
run of a settled node render in it, directly or through groups (`Concluded.emits_run`), and those of
a replaced node render nowhere. So if nodes are moved to hosts only, a node of the layout is in the
output of the target that the walk upwards ends in, and in no output if that leads nowhere
(`Concluded.exists_walk`).
-/

namespace ViewCompiler

open NodeTree

/-! ### Targets -/

theorem NodeTree.any_isNone_iff {t : NodeTree} {x : NodeId} :
    ((t.get? x).any fun n ↦ n.renderParent.isNone) = true ↔
      x < t.size ∧ t.renderParent? x = none := by
  rcases Nat.lt_or_ge x t.size with hx | hx
  · obtain ⟨n, hn⟩ := exists_get? hx
    rw [renderParent?, place_of_get? hn, hn, Option.any_some, Option.isNone_iff_eq_none]
    exact ⟨fun h ↦ ⟨hx, h⟩, And.right⟩
  · rw [get?_eq_none_iff.2 hx]
    exact ⟨fun h ↦ absurd h (by simp), fun h ↦ absurd h.1 (Nat.not_lt.2 hx)⟩

theorem NodeTree.match_renderOrder_iff {t : NodeTree} {x : NodeId} :
    (match t.renderOrder x with | .ok (_ :: _) => true | _ => false) = true ↔ t.order x ≠ [] := by
  rcases Nat.lt_or_ge x t.size with hx | hx
  · rw [renderOrder_eq hx]
    cases t.order x <;> simp
  · rw [renderOrder, get?_eq_none_iff.2 hx, order, renderMembers, place_eq_blank hx]
    exact ⟨fun h ↦ absurd h (by simp), fun h ↦ absurd rfl h⟩

theorem Context.mem_targets {c : Context} {x : NodeId} :
    x ∈ c.targets.map DocumentEntry.root ↔
      (x < c.tree.size ∧ c.tree.renderParent? x = none ∧ x ∈ c.documents.map DocumentEntry.root) ∨
        ∃ name, c.hosts.get? name = some x ∧ c.tree.order x ≠ [] := by
  rw [targets]
  simp only [List.map_append, List.mem_append, List.map_map, List.mem_map, List.mem_filter,
    Function.comp_apply, Prod.exists]
  refine or_congr ⟨?_, ?_⟩ ⟨?_, ?_⟩
  · rintro ⟨e, ⟨he, htop⟩, rfl⟩
    obtain ⟨hlt, hnone⟩ := any_isNone_iff.1 htop
    exact ⟨hlt, hnone, e, he, rfl⟩
  · rintro ⟨hlt, hnone, e, he, rfl⟩
    exact ⟨e, ⟨he, any_isNone_iff.2 ⟨hlt, hnone⟩⟩, rfl⟩
  · rintro ⟨name, y, ⟨hmem, hused⟩, rfl⟩
    exact ⟨name, SortedMap.mem_entries_iff.1 hmem, match_renderOrder_iff.1 hused⟩
  · rintro ⟨name, hget, hne⟩
    exact ⟨name, x, ⟨SortedMap.mem_entries_iff.2 hget, match_renderOrder_iff.2 hne⟩, rfl⟩

variable {σ : Type} {h : Host σ} {π : Policy}

/-- A node is in the output of one target, or of none. -/
def Decided.Emits (d : Decided σ) (n : NodeId) (home : Option NodeId) : Prop :=
  (∀ x, home = some x → x ∈ d.run.context.targets.map DocumentEntry.root) ∧
    ∀ x ∈ d.run.context.targets.map DocumentEntry.root,
      (Inside d.run.context.tree.order x n ↔ home = some x)

namespace Concluded

variable {l : Answers} {moved : List (NodeId × NodeId)} {r kept : Run σ} {d : Decided σ}
  (hd : Concluded π h l moved r kept d)

include hd

theorem replacements_eq (n : NodeId) : d.replacements.get? n = (l.about n).replacement? := by
  rw [hd.answered.replacements]
  split
  · rfl
  · rw [Answers.about_eq_proceed ‹_›]
    rfl

theorem kind_root {x : NodeId} (hx : x ∈ d.run.context.documents.map DocumentEntry.root) :
    d.run.context.tree.kind? x = some .root := by
  obtain ⟨e, he, rfl⟩ := List.mem_map.1 hx
  rw [hd.answered.documents] at he
  exact hd.answered.extended.kind?_eq (hd.ingested.roots e he)

theorem kind_target {x : NodeId} (hx : x ∈ d.run.context.targets.map DocumentEntry.root) :
    ∃ k, d.run.context.tree.kind? x = some k ∧ k.isTop = true := by
  rcases Context.mem_targets.1 hx with ⟨-, -, hroot⟩ | ⟨name, hget, -⟩
  · exact ⟨_, hd.kind_root hroot, rfl⟩
  · exact ⟨_, hd.answered.hosts name x hget, rfl⟩

/-- A host renders nowhere. -/
theorem renderParent?_host {x : NodeId} (hx : d.run.context.tree.kind? x = some .host) :
    d.run.context.tree.renderParent? x = none := by
  have ha := hd.answered.arranged
  refine ha.renderParent_eq_none (fun p hp ↦ (ha.moves x p hp).2.2 hx) fun p hp _ ↦ ?_
  exact absurd ((ha.documentParent?_of_isTop hx rfl).symm.trans hp) (by simp)

/-- **Targets are outermost.** -/
theorem outermost {x : NodeId} (hx : x ∈ d.run.context.targets.map DocumentEntry.root)
    (p : NodeId) : x ∉ d.run.context.tree.order p := fun hmem ↦ by
  have hp := (hd.answered.arranged.mem_iff p x).1 (mem_order.1 hmem)
  rcases Context.mem_targets.1 hx with ⟨-, hnone, -⟩ | ⟨name, hget, -⟩
  · exact absurd (hnone.symm.trans hp) (by simp)
  · rw [hd.renderParent?_host (hd.answered.hosts name x hget)] at hp
    exact absurd hp (by simp)

/-- **No target is written twice.** -/
theorem nodup_targets : (d.run.context.targets.map DocumentEntry.root).Nodup := by
  rw [Context.targets, List.map_append, List.map_map]
  refine List.Nodup.append ?_ ?_ fun x hx hx' ↦ ?_
  · have hnodup := hd.ingested.nodup
    rw [← hd.answered.documents] at hnodup
    exact hnodup.sublist (List.filter_sublist.map _)
  · have hentries := d.run.context.hosts.nodup_keys
    refine List.pairwise_map.2 ((List.pairwise_map.1 hentries).filter _ |>.imp_of_mem
      fun {e e'} he he' hne heq ↦ hne ?_)
    have hget := SortedMap.mem_entries_iff.1 (List.mem_filter.1 he).1
    have hget' := SortedMap.mem_entries_iff.1 (List.mem_filter.1 he').1
    rw [show e'.2 = e.2 from heq.symm] at hget'
    exact hd.answered.distinct e.1 e'.1 e.2 hget hget'
  · obtain ⟨e, he, rfl⟩ := List.mem_map.1 hx
    obtain ⟨e', he', heq⟩ := List.mem_map.1 hx'
    have hroot := hd.kind_root (List.mem_map_of_mem (List.mem_filter.1 he).1)
    have hhost := hd.answered.hosts e'.1 e'.2
      (SortedMap.mem_entries_iff.1 (List.mem_filter.1 he').1)
    rw [show e'.2 = e.root from heq, hroot] at hhost
    exact absurd hhost (by simp)

theorem lt_size_target {x : NodeId} (hx : x ∈ d.run.context.targets.map DocumentEntry.root) :
    x < d.run.context.tree.size := by
  obtain ⟨k, hk, -⟩ := hd.kind_target hx
  exact lt_size_of_kind? hk

/-- A node in the output of one target is in no other. -/
theorem emits_of_inside {x n : NodeId} (hx : x ∈ d.run.context.targets.map DocumentEntry.root)
    (hn : Inside d.run.context.tree.order x n) : d.Emits n (some x) := by
  refine ⟨fun y hy ↦ Option.some.inj hy ▸ hx, fun y hy ↦ ⟨fun hn' ↦ ?_, fun h ↦ ?_⟩⟩
  · rw [eq_of_inside_outermost hd.answered.arranged.eq_of_mem_order (hd.outermost hx)
      (hd.outermost hy) hn hn']
  · exact Option.some.inj h ▸ hn

/-- A node that is not to be moved is not moved. -/
theorem not_mem_moved {n : NodeId} (hstay : (l.about n).target? = none) (p : NodeId) :
    (n, p) ∉ moved := fun hmem ↦
  absurd ((hd.answered.answered n p hmem).2.symm.trans hstay) (by simp)

/-- A root that is not moved is in its own output. -/
theorem emits_root {x : NodeId} (hx : x ∈ d.run.context.documents.map DocumentEntry.root)
    (hstay : (l.about x).target? = none) : d.Emits x (some x) := by
  have ha := hd.answered.arranged
  have hkind := hd.kind_root hx
  have hnone : d.run.context.tree.renderParent? x = none := by
    refine ha.renderParent_eq_none (hd.not_mem_moved hstay) fun p hp _ ↦ ?_
    exact absurd ((ha.documentParent?_of_isTop hkind rfl).symm.trans hp) (by simp)
  exact hd.emits_of_inside (Context.mem_targets.2 (.inl ⟨lt_size_of_kind? hkind, hnone, hx⟩)) .refl

/-- **The members of the run of a node that is not replaced** are emitted where that is, unless they
are moved. -/
theorem emits_run {q n : NodeId} (hq : q ∈ l.map Prod.fst) (hkeep : (l.about q).replacement? = none)
    (hn : n ∈ d.run.context.tree.layoutRun q) (hstay : (l.about n).target? = none)
    {home : Option NodeId} (hhome : d.Emits q home) : d.Emits n home := by
  have ha := hd.answered.arranged
  obtain ⟨p, hp⟩ := ha.covered q (mem_settledIn.2 ⟨hq, hkeep⟩) n hn
  have hin : Inside d.run.context.tree.order q n :=
    ha.inside_member hp (ha.forest.documentParent hn) (hd.not_mem_moved hstay)
  refine ⟨hhome.1, fun x hx ↦ Iff.trans ⟨fun hxn ↦ ?_, fun hxq ↦ hxq.trans hin⟩ (hhome.2 x hx)⟩
  exact inside_of_outermost ha.eq_of_mem_order (hd.outermost hx) hxn hin

/-- **The members of the run of a replaced node** are not emitted, unless they are moved. -/
theorem emits_none {q n : NodeId} {text : String} (hreplaced : (l.about q).replacement? = some text)
    (hn : n ∈ d.run.context.tree.layoutRun q) (hstay : (l.about n).target? = none) :
    d.Emits n none := by
  have ha := hd.answered.arranged
  have hnone : d.run.context.tree.renderParent? n = none := by
    refine ha.renderParent_eq_none (hd.not_mem_moved hstay) fun q' hq' hmem ↦ ?_
    obtain rfl := Option.some.inj ((ha.forest.documentParent hn).symm.trans hq')
    exact absurd ((mem_settledIn.1 hmem).2.symm.trans hreplaced) (by simp)
  refine ⟨fun x hx ↦ absurd hx (by simp), fun x hx ↦ ⟨fun hin ↦ ?_, fun h ↦ absurd h (by simp)⟩⟩
  rcases Relation.ReflTransGen.cases_tail hin with rfl | ⟨p, -, hp⟩
  · -- a target is a root or a host, and neither is in a run
    obtain ⟨k, hk, htop⟩ := hd.kind_target hx
    rcases ha.forest.kind?_of_mem hn with hk' | hk' <;> rw [hk'] at hk <;> cases hk <;>
      exact absurd htop (by decide)
  · exact absurd (((ha.mem_iff p n).1 (mem_order.1 hp)).symm.trans hnone) (by simp)

/-- What has been asked about is what has a run. -/
theorem mem_asked {e : DocumentEntry} (he : e ∈ d.run.context.documents) {n : NodeId}
    (hn : Inside d.run.context.tree.layoutRun e.root n)
    (hrun : d.run.context.tree.layoutRun n ≠ []) : n ∈ l.map Prod.fst := by
  rw [hd.answered.extended.layoutRun_eq] at hn hrun
  exact (hd.asked n).2 ⟨e, hd.answered.documents ▸ he, hn, hrun⟩

omit hd in
/-- A node that is moved is in the output of its host, if nodes are moved to hosts only. -/
theorem emits_moved (hd : Concluded .decides h l moved r kept d) {n p : NodeId}
    (hp : (l.about n).target? = some p) : d.Emits n (some p) := by
  have hasked := Answers.mem_of_target hp
  have hallowed := hd.answered.allowed n hasked
  -- a host is there when it is asked for, so the move has been carried out
  have hmoved : (n, p) ∈ moved := (hd.answered.carried n hasked p hp).resolve_right
    fun ⟨_, c, ⟨name, hname⟩, hnone⟩ ↦ hnone name hname
  rw [HookAction.target?_eq_some_iff.1 hp] at hallowed
  obtain ⟨name, hname⟩ := hallowed
  obtain ⟨hparent, -⟩ := hd.answered.arranged.moves n p hmoved
  have hmem : n ∈ d.run.context.tree.order p :=
    mem_order.2 ((hd.answered.arranged.mem_iff p n).2 hparent)
  exact hd.emits_of_inside (Context.mem_targets.2 (.inr ⟨name, hname, List.ne_nil_of_mem hmem⟩))
    (.single hmem)

omit hd in
/-- **Where a node is emitted**: in the output of the target that the walk upwards ends in. -/
theorem exists_walk (hd : Concluded .decides h l moved r kept d) {e : DocumentEntry}
    (he : e ∈ d.run.context.documents) {n : NodeId}
    (hn : Inside d.run.context.tree.layoutRun e.root n) :
    ∃ above, Upward d.run.context.tree.documentParent? n (n :: above) ∧
      d.Emits n (l.walk n above) := by
  have ha := hd.answered.arranged
  have hroot := List.mem_map_of_mem (f := DocumentEntry.root) he
  induction hn with
  | refl =>
    refine ⟨[], .last (ha.documentParent?_of_isTop (hd.kind_root hroot) rfl), ?_⟩
    rw [Answers.walk]
    cases hp : (l.about e.root).target? with
    | some p => exact hd.emits_moved hp
    | none => exact hd.emits_root hroot hp
  | @tail q n hq hn ih =>
    obtain ⟨above, hup, hemits⟩ := ih
    refine ⟨q :: above, .step (ha.forest.documentParent hn) hup, ?_⟩
    rw [Answers.walk]
    cases hp : (l.about n).target? with
    | some p => exact hd.emits_moved hp
    | none =>
      dsimp only
      cases hreplaced : (l.about q).replacement? with
      | some text => exact hd.emits_none hreplaced hn hp
      | none =>
        have hasked := hd.mem_asked he hq (List.ne_nil_of_mem hn)
        exact hd.emits_run hasked hreplaced hn hp hemits

end Concluded

end ViewCompiler
