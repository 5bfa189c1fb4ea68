import ViewCompiler.Proofs.Convert.Unmoved
import ViewCompiler.Proofs.Layout.Arrangement
import ViewCompiler.Proofs.Layout.Placement

/-!
# Both sides of a render link

A place in the output is written down twice: a node names the node that it is inside of, and that
node lists what it has inside. `NodeTree.Linked` says that the two agree, and
`NodeTree.links_agree` that they agree after any sequence of calls, also if some of the calls fail.

One call is a `NodeTree.Call`, and `NodeTree.perform` carries it out. A call that fails leaves the
tree as it is, apart from `NodeTree.attach`, which notices a missing layout parent too late. For
classification that is so because it fails before it changes anything (`Classify.run_eq_error_iff`,
`Classify.document_eq_error_iff`).

What one call preserves is `NodeTree.Relinked`: links that agree go on to agree, and a node that is
inside another one stays there. No assumption is made about the tree at the start, so a
classification may well meet members that it has to skip.
-/

namespace ViewCompiler

namespace NodeTree

variable {t t' t'' : NodeTree}

/-- **Both sides of every render link agree.** -/
structure Linked (t : NodeTree) : Prop where
  mem_iff : ∀ p c, c ∈ t.renderMembers p ↔ t.renderParent? c = some p
  nodup : ∀ p, (t.renderMembers p).Nodup
  rendered : ∀ c p, t.renderParent? c = some p → t.isRendered c = true
  /-- There is one way not to have a place among other nodes. -/
  position : ∀ i, t.position i = -1 ∨ 0 ≤ t.position i

theorem Linked.empty : Linked .empty := by
  have hplace : ∀ i, NodeTree.empty.place i = .blank := fun i ↦ place_eq_blank (Nat.zero_le i)
  refine ⟨fun p c ↦ ?_, fun p ↦ ?_, fun c p hc ↦ ?_, fun i ↦ .inl ?_⟩
  · simp [renderMembers, renderParent?, hplace, Place.blank]
  · simp [renderMembers, hplace, Place.blank]
  · simp [renderParent?, hplace, Place.blank] at hc
  · rw [position_eq_place, hplace]
    rfl

/-! ### The order of output -/

/-- A list in which all that passes a test comes first. -/
theorem eq_filter_append_filter {α : Type} (test : α → Bool) {l : List α}
    (h : l.Pairwise fun a b ↦ test b = true → test a = true) :
    l = l.filter test ++ l.filter fun a ↦ !test a := by
  induction l with
  | nil => rfl
  | cons a r ih =>
    obtain ⟨ha, hr⟩ := List.pairwise_cons.1 h
    by_cases htest : test a = true
    · rw [List.filter_cons_of_pos htest, List.filter_cons_of_neg (by simp [htest]),
        List.cons_append, ← ih hr]
    · have hnone : r.filter test = [] := List.filter_eq_nil_iff.2 fun b hb hb' ↦
        htest (ha b hb hb')
      have hall : r.filter (fun b ↦ !test b) = r := List.filter_eq_self.2 fun b hb ↦ by
        simpa using fun hb' ↦ htest (ha b hb hb')
      rw [List.filter_cons_of_neg htest, List.filter_cons_of_pos (by simpa using htest), hnone,
        hall, List.nil_append]

theorem positionLE_total (a b : Int) : positionLE a b = true ∨ positionLE b a = true := by
  simp only [positionLE]
  split <;> split <;> simp only [decide_eq_true_eq] <;> omega

theorem positionLE_trans (a b c : Int) (hab : positionLE a b = true)
    (hbc : positionLE b c = true) : positionLE a c = true := by
  simp only [positionLE] at hab hbc ⊢
  split at hab <;> split at hbc <;> simp only [decide_eq_true_eq] at hab hbc <;> split <;>
    simp only [decide_eq_true_eq] <;> omega

/-- Whether a node has a place among the nodes that it is output with. -/
def hasPosition (t : NodeTree) (i : NodeId) : Bool := decide (0 ≤ t.position i)

/-- **Nodes with a place come first, by place, and the others keep the order of attachment.** -/
theorem Linked.exists_order (h : t.Linked) (p : NodeId) :
    ∃ placed, t.order p = placed ++ (t.renderMembers p).filter (fun c ↦ !t.hasPosition c) ∧
      placed.Perm ((t.renderMembers p).filter t.hasPosition) ∧
      placed.Pairwise fun a b ↦ t.position a ≤ t.position b := by
  have hsorted : (t.order p).Pairwise fun a b ↦
      positionLE (t.position a) (t.position b) = true :=
    pairwise_stableSort (fun a b ↦ positionLE_total (t.position a) (t.position b))
      (fun a b c ↦ positionLE_trans (t.position a) (t.position b) (t.position c)) _
  have hsplit := eq_filter_append_filter t.hasPosition (hsorted.imp fun {a b} hab hb ↦ by
    simp only [hasPosition, positionLE, decide_eq_true_eq] at hab hb ⊢
    split at hab <;> simp only [decide_eq_true_eq] at hab <;> omega)
  -- those without a place are all alike, so sorting does not move one past another
  have hrest : ((t.renderMembers p).filter fun c ↦ !t.hasPosition c).Pairwise fun a b ↦
      positionLE (t.position a) (t.position b) = true := by
    refine List.pairwise_iff_forall_sublist.2 fun {a b} hab ↦ ?_
    have hnone : ∀ c ∈ (t.renderMembers p).filter (fun c ↦ !t.hasPosition c),
        t.position c = -1 := fun c hc ↦ by
      have hneg := (List.mem_filter.1 hc).2
      simp only [hasPosition, Bool.not_eq_true', decide_eq_false_iff_not] at hneg
      exact (h.position c).resolve_right hneg
    rw [hnone a (hab.subset (by simp)), hnone b (hab.subset (by simp))]
    rfl
  have hkept : (t.order p).filter (fun c ↦ !t.hasPosition c) =
      (t.renderMembers p).filter fun c ↦ !t.hasPosition c := by
    have hsub := (sublist_stableSort List.filter_sublist hrest).filter fun c ↦ !t.hasPosition c
    rw [List.filter_filter, show (fun c ↦ (!t.hasPosition c && !t.hasPosition c)) =
      fun c ↦ !t.hasPosition c from funext fun c ↦ Bool.and_self _] at hsub
    exact (hsub.eq_of_length ((t.perm_order p).filter _).length_eq.symm).symm
  refine ⟨(t.order p).filter t.hasPosition, hkept ▸ hsplit, (t.perm_order p).filter _, ?_⟩
  refine (hsorted.filter _).imp_of_mem fun {a b} ha hb hab ↦ ?_
  have hpos : ∀ c ∈ (t.order p).filter t.hasPosition, 0 ≤ t.position c := fun c hc ↦
    of_decide_eq_true (List.mem_filter.1 hc).2
  have ha := hpos a ha
  have hb := hpos b hb
  simp only [positionLE] at hab
  split at hab <;> simp only [decide_eq_true_eq] at hab <;> omega

/-! ### What one call preserves -/

/-- Links that agree go on to agree, and no node is taken out of the one that it is inside of. -/
structure Relinked (t t' : NodeTree) : Prop where
  size_le : t.size ≤ t'.size
  kept : ∀ c p, t.renderParent? c = some p → t'.renderParent? c = some p
  linked : t.Linked → t'.Linked

namespace Relinked

theorem refl (t : NodeTree) : Relinked t t := ⟨Nat.le_refl _, fun _ _ ↦ id, id⟩

theorem trans (h : Relinked t t') (h' : Relinked t' t'') : Relinked t t'' where
  size_le := Nat.le_trans h.size_le h'.size_le
  kept c p hc := h'.kept c p (h.kept c p hc)
  linked hl := h'.linked (h.linked hl)

/-- **Steps that keep links keep them together.** -/
theorem foldl {α : Type} {f : NodeTree → α → NodeTree} (hf : ∀ t a, Relinked t (f t a))
    (l : List α) (t : NodeTree) : Relinked t (l.foldl f t) := by
  induction l generalizing t with
  | nil => exact refl t
  | cons a r ih => exact (hf t a).trans (ih (f t a))

/-- No link changes. -/
theorem of_renderParent (hsize : t.size ≤ t'.size)
    (hparent : ∀ i, t'.renderParent? i = t.renderParent? i)
    (hmembers : ∀ i, t'.renderMembers i = t.renderMembers i)
    (hrendered : ∀ i, t.isRendered i = true → t'.isRendered i = true)
    (hposition : ∀ i, t'.position i = t.position i ∨ 0 ≤ t'.position i) : Relinked t t' where
  size_le := hsize
  kept c p hc := (hparent c).trans hc
  linked h := {
    mem_iff := fun p c ↦ by
      rw [hmembers, hparent]
      exact h.mem_iff p c
    nodup := fun p ↦ by
      rw [hmembers]
      exact h.nodup p
    rendered := fun c p hc ↦ hrendered c (h.rendered c p ((hparent c).symm.trans hc))
    position := fun i ↦ by
      rcases hposition i with heq | hpos
      · rw [heq]
        exact h.position i
      · exact .inr hpos }

theorem of_place (hsize : t.size ≤ t'.size) (hplace : ∀ i, t'.place i = t.place i) :
    Relinked t t' := by
  refine of_renderParent hsize (fun i ↦ ?_) (fun i ↦ ?_) (fun i hi ↦ ?_) fun i ↦ .inl ?_
  · rw [renderParent?, renderParent?, hplace]
  · rw [renderMembers, renderMembers, hplace]
  · rw [isRendered, hplace]
    exact hi
  · rw [position_eq_place, position_eq_place, hplace]

theorem of_unmoved (h : Unmoved t t') : Relinked t t' :=
  of_place (Nat.le_of_eq h.size_eq.symm) h.place

/-- **A node without a render parent gets one**, and with it a link on both sides. -/
theorem of_attached {owner child : NodeId} (h : Attached owner [child] t t')
    (hnone : t.renderParent? child = none) (hposition : t'.position child = t.position child) :
    Relinked t t' where
  size_le := Nat.le_of_eq h.size_eq.symm
  kept c p hc := by
    have hne : c ∉ [child] := fun hmem ↦ by
      rw [List.mem_singleton.1 hmem, hnone] at hc
      exact absurd hc (by simp)
    rw [h.renderParent?, if_neg hne]
    exact hc
  linked hl := {
    mem_iff := fun p c ↦ by
      rw [h.renderMembers, h.renderParent?]
      by_cases hc : c = child
      · have hfree : c ∉ t.renderMembers p := fun hmem ↦ by
          rw [hl.mem_iff, hc, hnone] at hmem
          exact absurd hmem (by simp)
        have howner : owner = p ↔ p = owner := eq_comm
        by_cases hp : p = owner <;> simp [hc, hp, howner, hc ▸ hfree]
      · rw [if_neg fun hmem ↦ hc (List.mem_singleton.1 hmem), ← hl.mem_iff]
        split <;> simp [hc]
    nodup := fun p ↦ by
      rw [h.renderMembers]
      split
      · refine (hl.nodup p).append (List.nodup_singleton child) fun c hc hc' ↦ ?_
        rw [List.mem_singleton.1 hc', hl.mem_iff, hnone] at hc
        exact absurd hc (by simp)
      · exact hl.nodup p
    rendered := fun c p hc ↦ by
      rw [h.renderParent?] at hc
      rw [h.isRendered]
      split at hc
      · exact .inl ‹_›
      · exact .inr (hl.rendered c p hc)
    position := fun i ↦ by
      by_cases hi : i = child
      · rw [hi, hposition]
        exact hl.position child
      · rw [h.position i fun hmem ↦ hi (List.mem_singleton.1 hmem)]
        exact hl.position i }

end Relinked

theorem relinked_alloc (t : NodeTree) (kind : NodeKind) (tag : String) :
    Relinked t (t.alloc kind tag).2 := by
  have hplace : ∀ i, (t.alloc kind tag).2.position i = t.position i := fun i ↦ by
    rw [position_eq_place, position_eq_place, place_alloc]
    split
    · rw [place_eq_blank (Nat.le_of_eq (Eq.symm ‹_›))]
    · rfl
  refine .of_renderParent ?_ (t.renderParent?_alloc kind tag) (t.renderMembers_alloc kind tag)
    (fun i hi ↦ ?_) fun i ↦ .inl (hplace i)
  · rw [size_alloc]
    exact Nat.le_succ _
  · rw [isRendered, place_alloc]
    split
    · rw [isRendered, place_eq_blank (Nat.le_of_eq (Eq.symm ‹_›))] at hi
      exact absurd hi (by simp [Place.blank])
    · exact hi

theorem relinked_attach (t : NodeTree) (parent child : NodeId) (layoutParent : Option NodeId) :
    Relinked t (t.attach parent child layoutParent).2 :=
  .of_place (Nat.le_of_eq (Sown.size_attach t parent child layoutParent).symm)
    (Sown.place_attach t parent child layoutParent)

theorem relinked_allocGroup {parent id : NodeId} {bounds : Rect}
    (h : t.allocGroup parent bounds = .ok (id, t')) : Relinked t t' := by
  obtain ⟨p, hp⟩ := exists_get?_of_allocGroup h
  obtain ⟨t₁, hok, hsize, -, -, hplace⟩ := exists_allocGroup (lt_size_of_get? hp) bounds
  obtain ⟨-, rfl⟩ := Prod.mk.inj (Except.ok.inj (h.symm.trans hok))
  exact .of_place (hsize ▸ Nat.le_succ _) hplace

theorem relinked_setRenderParent {child parent : NodeId}
    (h : t.setRenderParent child parent = .ok t') : Relinked t t' := by
  obtain ⟨hchild, hparent, hnone⟩ := open_of_setRenderParent h
  obtain ⟨t₁, hok, hattached, hposition⟩ := exists_setRenderParent hchild hparent hnone
  obtain rfl := Except.ok.inj (h.symm.trans hok)
  exact .of_attached hattached hnone hposition

theorem relinked_relocate {child target : NodeId} (h : t.relocate child target = .ok t') :
    Relinked t t' := by
  cases hset : t.setRenderParent child target with
  | error e =>
    rw [relocate, hset] at h
    exact absurd h (by simp [Except.map])
  | ok t₁ =>
    rw [relocate, hset] at h
    obtain rfl := Except.ok.inj h
    exact (relinked_setRenderParent hset).trans
      (.of_unmoved (unmoved_modify t₁ child (fun _ ↦ by rfl) fun _ ↦ by rfl))

/-- A node may be given a place among the nodes that it is output with. -/
theorem relinked_setPosition (t : NodeTree) (id : NodeId) (k : Nat) :
    Relinked t (t.modify id fun n ↦ { n with renderPosition := k }) := by
  rcases Nat.lt_or_ge id t.size with hid | hid
  · have hplace := fun i ↦ place_modify (t := t) (f := fun n ↦ { n with renderPosition := k })
      (g := fun l ↦ { l with renderPosition := k }) (fun n ↦ rfl) hid i
    refine .of_renderParent (Nat.le_of_eq (size_modify _ _ _).symm) (fun i ↦ ?_) (fun i ↦ ?_)
      (fun i hi ↦ ?_) fun i ↦ ?_
    · rw [renderParent?, hplace]
      split <;> rfl
    · rw [renderMembers, hplace]
      split <;> rfl
    · rw [isRendered, hplace]
      split <;> exact hi
    · rw [position_eq_place, position_eq_place, hplace]
      split
      · exact .inr (Int.natCast_nonneg k)
      · exact .inl rfl
  · refine .of_place (Nat.le_of_eq (size_modify _ _ _).symm) fun i ↦ ?_
    rw [place, place, get?_modify]
    split
    · rename_i heq
      rw [← heq, get?_eq_none_iff.2 hid]
      rfl
    · rfl

end NodeTree

namespace Classify

open NodeTree

variable (c : LayoutConfig) {parent owner : NodeId}

/-! ### Classification -/

theorem relinked_placeMember (owner : NodeId) (p : Placing) (id : NodeId) :
    Relinked p.tree (placeMember owner p id).tree := by
  rw [placeMember]
  cases hset : p.tree.setRenderParent id owner with
  | error e => exact .refl p.tree
  | ok t => exact (relinked_setRenderParent hset).trans (relinked_setPosition t id p.placed.length)

theorem relinked_placeMembers (owner : NodeId) (ids : List NodeId) (p : Placing) :
    Relinked p.tree (ids.foldl (placeMember owner) p).tree := by
  induction ids generalizing p with
  | nil => exact .refl p.tree
  | cons id r ih => exact (relinked_placeMember owner p id).trans (ih (placeMember owner p id))

/-- **One container.** Members that have a place elsewhere are skipped. -/
theorem relinked_settle (owner : NodeId) (synthetic : Bool) (a : Arrangement)
    (members : List NodeId) (s : State) :
    Relinked s.tree (settle c owner synthetic a members s).tree :=
  (relinked_placeMembers owner _ ⟨s.tree, [], []⟩).trans (.of_unmoved (unmoved_mark c _ _ _ _ _ _))

mutual

/-- **A plan is carried out**, whatever its members are. -/
theorem exists_relinked_realize : ∀ (p : Plan) (s : State), parent < s.tree.size →
    ∃ id s', realize c parent s p = .ok (id, s') ∧ Relinked s.tree s'.tree
  | .member id, s, _ => ⟨id, s, by rw [realize], .refl s.tree⟩
  | .group a members, s, hparent => by
    obtain ⟨t₁, halloc, -⟩ := NodeTree.exists_allocGroup hparent
      ((Rect.unionAll? ((s.tree.lookup (leavesOfAll members)).map Node.bounds)).getD .zero)
    have hmade := relinked_allocGroup halloc
    obtain ⟨ids, s₂, hrealize, hrelinked⟩ := exists_relinked_realizeAll members ⟨t₁, s.outcome⟩
      (Nat.lt_of_lt_of_le hparent hmade.size_le)
    refine ⟨s.tree.size, settle c s.tree.size true a ids s₂, ?_,
      (hmade.trans hrelinked).trans (relinked_settle c s.tree.size true a ids s₂)⟩
    exact realize_group c halloc hrealize

theorem exists_relinked_realizeAll : ∀ (ps : List Plan) (s : State), parent < s.tree.size →
    ∃ ids s', realizeAll c parent s ps = .ok (ids, s') ∧ Relinked s.tree s'.tree
  | [], s, _ => ⟨[], s, by rw [realizeAll], .refl s.tree⟩
  | p :: r, s, hparent => by
    obtain ⟨id, s₁, hfirst, hrelinked⟩ := exists_relinked_realize p s hparent
    obtain ⟨ids, s₂, hrest, hrelinked'⟩ :=
      exists_relinked_realizeAll r s₁ (Nat.lt_of_lt_of_le hparent hrelinked.size_le)
    exact ⟨id :: ids, s₂, realizeAll_cons c hfirst hrest, hrelinked.trans hrelinked'⟩

end

/-- The run of a node that there is. -/
theorem exists_relinked_run {t : NodeTree} (hparent : parent < t.size) :
    ∃ o t', run c t parent = .ok (o, t') ∧ Relinked t t' := by
  by_cases hnil : t.pending parent = []
  · exact ⟨.empty, t, run_of_pending_eq_nil c hparent hnil, .refl t⟩
  · obtain ⟨p, hp⟩ := exists_get? hparent
    have hmarks := unmoved_markOverlays c t p (t.lookup (t.pending parent))
    obtain ⟨ids, s, hrealize, hrelinked⟩ := exists_relinked_realizeAll c
      (Plan.ofPending c p (t.lookup (t.pending parent))).members
      ⟨markOverlays c t p (t.lookup (t.pending parent)), .empty⟩ (hmarks.size_eq.symm ▸ hparent)
    have hsettle := relinked_settle c parent false
      (Plan.ofPending c p (t.lookup (t.pending parent))).arrangement ids s
    exact ⟨_, _, run_of_realizeAll hp hnil hrealize rfl,
      ((Relinked.of_unmoved hmarks).trans hrelinked).trans hsettle⟩

/-- **Classification fails at its first look at the tree or not at all.** -/
theorem run_eq_error_iff {t : NodeTree} {e : TreeError} :
    run c t parent = .error e ↔ t.size ≤ parent ∧ e = .unknownNode parent := by
  rcases Nat.lt_or_ge parent t.size with hparent | hparent
  · obtain ⟨o, t', hok, -⟩ := exists_relinked_run c hparent
    rw [hok]
    simp [Nat.not_le.2 hparent]
  · rw [run, pendingRun, get?_eq_none_iff.2 hparent]
    simp [hparent, bind, Except.bind, eq_comm]

theorem relinked_run {t t' : NodeTree} {o : ClassifyOutcome}
    (h : run c t parent = .ok (o, t')) : Relinked t t' := by
  rcases Nat.lt_or_ge parent t.size with hparent | hparent
  · obtain ⟨o', t₁, hok, hrelinked⟩ := exists_relinked_run c hparent
    obtain ⟨-, rfl⟩ := Prod.mk.inj (Except.ok.inj (h.symm.trans hok))
    exact hrelinked
  · rw [(run_eq_error_iff c).2 ⟨hparent, rfl⟩] at h
    exact absurd h (by simp)

/-- The runs of nodes that there are. -/
theorem exists_relinked_runs {t : NodeTree} {ids : List NodeId} (hids : ∀ i ∈ ids, i < t.size) :
    ∃ o t', runs c t ids = .ok (o, t') ∧ Relinked t t' := by
  induction ids generalizing t with
  | nil => exact ⟨.empty, t, rfl, .refl t⟩
  | cons id r ih =>
    obtain ⟨o, t₁, hfirst, hrelinked⟩ := exists_relinked_run c (hids id List.mem_cons_self)
    obtain ⟨os, t₂, hrest, hrelinked'⟩ := ih fun i hi ↦
      Nat.lt_of_lt_of_le (hids i (List.mem_cons_of_mem id hi)) hrelinked.size_le
    exact ⟨o.append os, t₂, runs_cons hfirst hrest, hrelinked.trans hrelinked'⟩

/-- **The runs of a document** are classified if there is an order for them. -/
theorem exists_relinked_document {t : NodeTree} {root : NodeId} {ids : List NodeId}
    (hids : t.classificationOrder root = .ok ids) :
    ∃ o t', document c t root = .ok (o, t') ∧ Relinked t t' := by
  have hlt : ∀ i ∈ ids, i < t.size := fun i hi ↦ by
    rw [classificationOrder] at hids
    cases hsub : t.layoutSubtree root with
    | error e =>
      rw [hsub] at hids
      exact absurd hids (by simp [bind, Except.bind])
    | ok below =>
      rw [hsub] at hids
      rw [← Except.ok.inj hids] at hi
      obtain ⟨n, hn, rfl⟩ := List.mem_map.1 hi
      obtain ⟨j, -, hj⟩ := List.mem_filterMap.1 (List.mem_filter.1 (mem_stableSort.1 hn)).1
      exact id_of_get? hj ▸ lt_size_of_get? hj
  obtain ⟨o, t', hruns, hrelinked⟩ := exists_relinked_runs c hlt
  refine ⟨o, t', ?_, hrelinked⟩
  rw [document, hids]
  exact hruns

theorem document_eq_error_iff {t : NodeTree} {root : NodeId} {e : TreeError} :
    document c t root = .error e ↔ t.classificationOrder root = .error e := by
  cases hids : t.classificationOrder root with
  | error e' => simp [document, hids, bind, Except.bind]
  | ok ids =>
    obtain ⟨o, t', hok, -⟩ := exists_relinked_document c hids
    simp [hok]

theorem relinked_document {t t' : NodeTree} {root : NodeId} {o : ClassifyOutcome}
    (h : document c t root = .ok (o, t')) : Relinked t t' := by
  cases hids : t.classificationOrder root with
  | error e =>
    rw [(document_eq_error_iff c).2 hids] at h
    exact absurd h (by simp)
  | ok ids =>
    obtain ⟨o', t₁, hok, hrelinked⟩ := exists_relinked_document c hids
    obtain ⟨-, rfl⟩ := Prod.mk.inj (Except.ok.inj (h.symm.trans hok))
    exact hrelinked

end Classify

namespace NodeTree

/-! ### Sequences of calls -/

/-- A call of an operation that makes, connects or classifies nodes. -/
inductive Call where
  | alloc (kind : NodeKind) (tag : String)
  | attach (parent child : NodeId) (layoutParent : Option NodeId)
  | allocGroup (parent : NodeId) (bounds : Rect)
  | setRenderParent (child parent : NodeId)
  | relocate (child target : NodeId)
  | computeRenderDepths
  | classify (config : LayoutConfig) (parent : NodeId)
  | classifyDocument (config : LayoutConfig) (root : NodeId)

/-- The tree after an operation, which is the tree before if the operation fails. -/
def orElse (t : NodeTree) : Except TreeError NodeTree → NodeTree
  | .ok t' => t'
  | .error _ => t

/-- The tree after a call. -/
def perform (t : NodeTree) : Call → NodeTree
  | .alloc kind tag => (t.alloc kind tag).2
  | .attach parent child layoutParent => (t.attach parent child layoutParent).2
  | .allocGroup parent bounds => t.orElse ((t.allocGroup parent bounds).map Prod.snd)
  | .setRenderParent child parent => t.orElse (t.setRenderParent child parent)
  | .relocate child target => t.orElse (t.relocate child target)
  | .computeRenderDepths => t.computeRenderDepths
  | .classify config parent => t.orElse ((Classify.run config t parent).map Prod.snd)
  | .classifyDocument config root => t.orElse ((Classify.document config t root).map Prod.snd)

/-- The tree after some calls. -/
def performAll (t : NodeTree) (calls : List Call) : NodeTree := calls.foldl perform t

theorem relinked_orElse (t : NodeTree) {r : Except TreeError NodeTree}
    (h : ∀ t', r = .ok t' → Relinked t t') : Relinked t (t.orElse r) := by
  cases r with
  | ok t' => exact h t' rfl
  | error e => exact .refl t

/-- An answer beside the tree does not matter. -/
theorem relinked_orElse_snd {α : Type} (t : NodeTree) {r : Except TreeError (α × NodeTree)}
    (h : ∀ a t', r = .ok (a, t') → Relinked t t') : Relinked t (t.orElse (r.map Prod.snd)) := by
  refine t.relinked_orElse fun t' ht' ↦ ?_
  cases r with
  | ok x => exact h x.1 t' (by rw [← Except.ok.inj ht'])
  | error e => exact absurd ht' (by simp [Except.map])

/-- **One call**, whether it fails or not. -/
theorem relinked_perform (t : NodeTree) (call : Call) : Relinked t (t.perform call) := by
  cases call with
  | alloc kind tag => exact t.relinked_alloc kind tag
  | attach parent child layoutParent => exact t.relinked_attach parent child layoutParent
  | allocGroup parent bounds => exact t.relinked_orElse_snd fun _ _ ↦ relinked_allocGroup
  | setRenderParent child parent => exact t.relinked_orElse fun _ ↦ relinked_setRenderParent
  | relocate child target => exact t.relinked_orElse fun _ ↦ relinked_relocate
  | computeRenderDepths => exact .of_unmoved t.unmoved_computeRenderDepths
  | classify config parent =>
    exact t.relinked_orElse_snd fun _ _ ↦ Classify.relinked_run config
  | classifyDocument config root =>
    exact t.relinked_orElse_snd fun _ _ ↦ Classify.relinked_document config

/-- **Both sides of every render link agree after any calls**: a node names the node that it is
inside of exactly if that node lists it, which it does once and no other node does. A node inside
another one is marked as rendered and is never moved again by `more` calls, and what comes out
inside a node is ordered by place, with the nodes that have none in order of attachment at the
end. -/
theorem links_agree (calls more : List Call) :
    let t := empty.performAll calls
    (∀ c p, t.renderParent? c = some p ↔ c ∈ t.renderMembers p) ∧
      (∀ c p, c ∈ t.renderMembers p →
        (t.renderMembers p).count c = 1 ∧ ∀ q, c ∈ t.renderMembers q → q = p) ∧
      (∀ c p, t.renderParent? c = some p →
        t.isRendered c = true ∧ (t.performAll more).renderParent? c = some p) ∧
      ∀ p < t.size, ∃ placed,
        t.renderOrder p =
          .ok (placed ++ (t.renderMembers p).filter fun c ↦ decide (t.position c < 0)) ∧
        placed.Perm ((t.renderMembers p).filter fun c ↦ decide (0 ≤ t.position c)) ∧
        placed.Pairwise fun a b ↦ t.position a ≤ t.position b := by
  intro t
  have hlinked : t.Linked := (Relinked.foldl relinked_perform calls empty).linked .empty
  refine ⟨fun c p ↦ (hlinked.mem_iff p c).symm, fun c p hc ↦ ⟨?_, fun q hq ↦ ?_⟩, fun c p hc ↦
    ⟨hlinked.rendered c p hc, (Relinked.foldl relinked_perform more t).kept c p hc⟩,
    fun p hp ↦ ?_⟩
  · exact List.count_eq_one_of_mem (hlinked.nodup p) hc
  · rw [hlinked.mem_iff] at hc hq
    exact Option.some.inj (hq.symm.trans hc)
  · obtain ⟨placed, horder, hperm, hsorted⟩ := hlinked.exists_order p
    have hneg : ∀ c, (!t.hasPosition c) = decide (t.position c < 0) := fun c ↦ by
      rw [hasPosition, ← decide_not]
      exact decide_eq_decide.2 Int.not_le
    refine ⟨placed, ?_, hperm, hsorted⟩
    rw [renderOrder_eq hp, horder]
    exact congrArg (fun f ↦ Except.ok (placed ++ (t.renderMembers p).filter f)) (funext hneg)

end NodeTree

end ViewCompiler
