import ViewCompiler.Proofs.Layout.ClassificationOrder
import ViewCompiler.Proofs.Layout.Planting
import ViewCompiler.Proofs.Layout.Said

/-!
# Documents do not refer to each other

All documents of a conversion share one tree. `Sprouted` says of two stages of it that the nodes of
the first are as they were, and that the nodes that have come refer to each other only: as parents
and children, as members of runs, and as labels with what they label. The nodes of one more document
come in this way (`Ingest.sprouted_document`), and so do those of several (`Sprouted.trans`).

A tree sprouted from the empty one refers to its own nodes only. That is what keeps a label from
being tied to a node of an earlier document: the search for its target climbs from every node with
the right `id`, and climbs out of the earlier documents never.
-/

namespace ViewCompiler

open NodeTree Sown

/-- The nodes that a node refers to in the structure of the source. -/
def Node.refs (n : Node) : List NodeId :=
  n.parent.toList ++ n.documentParent.toList ++ n.companion.toList ++ n.children ++
    n.layoutChildren

theorem Node.mem_refs {n : Node} {r : NodeId} : r ∈ n.refs ↔ n.parent = some r ∨
    n.documentParent = some r ∨ n.companion = some r ∨ r ∈ n.children ∨ r ∈ n.layoutChildren := by
  simp only [refs, List.mem_append, Option.mem_toList, or_assoc]

/-- A tree with new nodes, which refer to each other only. -/
structure Sprouted (t t' : NodeTree) : Prop where
  size_le : t.size ≤ t'.size
  old : ∀ i < t.size, t'.get? i = t.get? i
  new : ∀ (i : Nat) (n : Node), t.size ≤ i → t'.get? i = some n →
    ∀ r ∈ n.refs, t.size ≤ r ∧ r < t'.size

namespace Sprouted

variable {t t' t'' : NodeTree}

theorem refl (t : NodeTree) : Sprouted t t where
  size_le := Nat.le_refl _
  old _ _ := rfl
  new _ _ hi hn := absurd (lt_size_of_get? hn) (Nat.not_lt.2 hi)

theorem trans (h : Sprouted t t') (h' : Sprouted t' t'') : Sprouted t t'' where
  size_le := Nat.le_trans h.size_le h'.size_le
  old i hi := (h'.old i (Nat.lt_of_lt_of_le hi h.size_le)).trans (h.old i hi)
  new i n hi hn r hr := by
    rcases Nat.lt_or_ge i t'.size with hlt | hge
    · rw [h'.old i hlt] at hn
      obtain ⟨hle, hlt⟩ := h.new i n hi hn r hr
      exact ⟨hle, Nat.lt_of_lt_of_le hlt h'.size_le⟩
    · obtain ⟨hle, hlt⟩ := h'.new i n hge hn r hr
      exact ⟨Nat.le_trans h.size_le hle, hlt⟩

/-- A tree that has sprouted from nothing refers to its own nodes. -/
theorem refs_lt (h : Sprouted .empty t) {i : NodeId} {n : Node} (hn : t.get? i = some n) :
    ∀ r ∈ n.refs, r < t.size :=
  fun r hr ↦ (h.new i n (Nat.zero_le _) hn r hr).2

/-! ### What can be done to the new nodes -/

variable (h : Sprouted t t')

include h

/-- **A new node is changed**, and may refer to other new ones. -/
theorem modify {id : Nat} (hid : t.size ≤ id) {f : Node → Node}
    (hf : ∀ n, t'.get? id = some n →
      ∀ r ∈ (f n).refs, r ∈ n.refs ∨ t.size ≤ r ∧ r < t'.size) :
    Sprouted t (t'.modify id f) where
  size_le := by
    rw [size_modify]
    exact h.size_le
  old i hi := by
    rw [get?_modify, if_neg (Nat.ne_of_gt (Nat.lt_of_lt_of_le hi hid)), h.old i hi]
  new i n hi hn r hr := by
    rw [size_modify]
    rw [get?_modify] at hn
    split at hn
    · rename_i heq
      subst heq
      obtain ⟨m, hm, rfl⟩ := Option.map_eq_some_iff.1 hn
      exact (hf m hm r hr).elim (h.new id m hi hm r) fun hnew ↦ hnew
    · exact h.new i n hi hn r hr

/-- A new node is changed in other ways. -/
theorem modify_of_refs {id : Nat} (hid : t.size ≤ id) {f : Node → Node}
    (hf : ∀ n, (f n).refs = n.refs) : Sprouted t (t'.modify id f) :=
  h.modify hid fun n _ _ hr ↦ .inl (hf n ▸ hr)

/-- A new node loses its run. -/
theorem cut {id : Nat} (hid : t.size ≤ id) {f : Node → Node}
    (hf : ∀ n, (f n).refs = ({ n with layoutChildren := [] } : Node).refs) :
    Sprouted t (t'.modify id f) := by
  refine h.modify hid fun n _ r hr ↦ .inl ?_
  rw [hf, Node.refs, List.append_nil] at hr
  exact List.mem_append_left _ hr

theorem alloc (kind : NodeKind) (tag : String) : Sprouted t (t'.alloc kind tag).2 where
  size_le := by
    rw [size_alloc]
    exact Nat.le_succ_of_le h.size_le
  old i hi := by
    rw [get?_alloc, if_neg (Nat.ne_of_lt (Nat.lt_of_lt_of_le hi h.size_le)), h.old i hi]
  new i n hi hn r hr := by
    rw [size_alloc]
    rw [get?_alloc] at hn
    split at hn
    · rw [← Option.some.inj hn] at hr
      exact absurd hr List.not_mem_nil
    · obtain ⟨hle, hlt⟩ := h.new i n hi hn r hr
      exact ⟨hle, Nat.lt_succ_of_lt hlt⟩

theorem addChild {parent child : Nat} (hparent : t.size ≤ parent) (hchild : t.size ≤ child)
    (hlt : child < t'.size) : Sprouted t (t'.modify parent (addChild child)) := by
  refine h.modify hparent fun n _ r hr ↦ ?_
  simp only [Node.mem_refs, NodeTree.addChild, List.mem_append, List.mem_singleton] at hr ⊢
  rcases hr with hr | hr | hr | (hr | rfl) | hr
  exacts [.inl (.inl hr), .inl (.inr (.inl hr)), .inl (.inr (.inr (.inl hr))),
    .inl (.inr (.inr (.inr (.inl hr)))), .inr ⟨hchild, hlt⟩,
    .inl (.inr (.inr (.inr (.inr hr))))]

theorem addMember {parent child : Nat} (hparent : t.size ≤ parent) (hchild : t.size ≤ child)
    (hlt : child < t'.size) : Sprouted t (t'.modify parent (addMember child)) := by
  refine h.modify hparent fun n _ r hr ↦ ?_
  simp only [Node.mem_refs, NodeTree.addMember, List.mem_append, List.mem_singleton] at hr ⊢
  rcases hr with hr | hr | hr | hr | hr | rfl
  exacts [.inl (.inl hr), .inl (.inr (.inl hr)), .inl (.inr (.inr (.inl hr))),
    .inl (.inr (.inr (.inr (.inl hr)))), .inl (.inr (.inr (.inr (.inr hr)))),
    .inr ⟨hchild, hlt⟩]

theorem under {parent child : Nat} {layoutParent : Option NodeId} (hparent : t.size ≤ parent)
    (hplt : parent < t'.size) (hchild : t.size ≤ child)
    (hlayout : ∀ l, layoutParent = some l → t.size ≤ l ∧ l < t'.size) (index depth : Nat) :
    Sprouted t (t'.modify child (under parent layoutParent index depth)) := by
  refine h.modify hchild fun n _ r hr ↦ ?_
  simp only [Node.mem_refs, NodeTree.under] at hr ⊢
  rcases hr with hr | hr | hr | hr | hr
  · exact .inr (Option.some.inj hr ▸ ⟨hparent, hplt⟩)
  · exact .inr (hlayout r hr)
  · exact .inl (.inr (.inr (.inl hr)))
  · exact .inl (.inr (.inr (.inr (.inl hr))))
  · exact .inl (.inr (.inr (.inr (.inr hr))))

/-- **New nodes are attached to new ones.** -/
theorem attach {parent child : Nat} {layoutParent : Option NodeId} (hparent : t.size ≤ parent)
    (hchild : t.size ≤ child) (hlayout : ∀ l, layoutParent = some l → t.size ≤ l) :
    Sprouted t (t'.attach parent child layoutParent).2 := by
  unfold NodeTree.attach
  split
  · exact h
  · exact h
  rename_i c p hc hp
  have hclt := lt_size_of_get? hc
  have hplt := lt_size_of_get? hp
  have hadd := h.addChild hparent hchild hclt
  have hsize : (t'.modify parent (NodeTree.addChild child)).size = t'.size := size_modify _ _ _
  dsimp only
  split
  · exact hadd.under hparent (hsize ▸ hplt) hchild (by simp) _ _
  · rename_i l
    split
    · exact hadd
    · rename_i above hl
      have hllt := lt_size_of_get? hl
      refine (hadd.addMember (hlayout l rfl) hchild (hsize ▸ hclt)).under hparent ?_ hchild ?_ _ _
      · rw [size_modify]
        exact hsize ▸ hplt
      · intro l' hl'
        rw [size_modify, ← Option.some.inj hl']
        exact ⟨hlayout l rfl, hllt⟩

end Sprouted

/-! ### Down and up -/

namespace NodeTree

variable {t : NodeTree} {P : NodeId → Prop}

/-- The walk downwards stays among nodes whose runs stay among them. -/
theorem forall_of_descendLayout
    (hclosed : ∀ i n, P i → t.get? i = some n → ∀ c ∈ n.layoutChildren, P c) {fuel : Nat}
    {seen stack ids : List NodeId} (hseen : ∀ i ∈ seen, P i) (hstack : ∀ i ∈ stack, P i)
    (hok : t.descendLayout fuel seen stack = .ok ids) : ∀ i ∈ ids, P i := by
  induction fuel generalizing seen stack with
  | zero =>
    cases stack with
    | nil =>
      rw [descendLayout] at hok
      rw [← Except.ok.inj hok]
      exact fun i hi ↦ hseen i (List.mem_reverse.1 hi)
    | cons id stack => exact absurd hok (by simp [descendLayout])
  | succ fuel ih =>
    cases stack with
    | nil =>
      rw [descendLayout] at hok
      rw [← Except.ok.inj hok]
      exact fun i hi ↦ hseen i (List.mem_reverse.1 hi)
    | cons id stack =>
      have hid := hstack id List.mem_cons_self
      rw [descendLayout] at hok
      split at hok
      · exact absurd hok (by simp)
      · split at hok
        · exact absurd hok (by simp)
        · rename_i n hn
          refine ih (fun i hi ↦ ?_) (fun i hi ↦ ?_) hok
          · exact (List.mem_cons.1 hi).elim (fun heq ↦ heq ▸ hid) (hseen i)
          · exact (List.mem_append.1 hi).elim (hclosed id n hid hn i)
              fun hi ↦ hstack i (List.mem_cons_of_mem _ hi)

theorem forall_of_layoutSubtree
    (hclosed : ∀ i n, P i → t.get? i = some n → ∀ c ∈ n.layoutChildren, P c) {root : NodeId}
    (hroot : P root) {ids : List NodeId} (hok : t.layoutSubtree root = .ok ids) :
    ∀ i ∈ ids, P i :=
  forall_of_descendLayout hclosed (by simp) (by simpa using hroot) hok

/-- The walk upwards stays among nodes whose links stay among them. -/
theorem forall_of_climb {link : Node → Option NodeId}
    (hclosed : ∀ i n, P i → t.get? i = some n → ∀ p, link n = some p → P p) {start : NodeId}
    {fuel : Nat} {seen : List NodeId} {current : NodeId} {ids : List NodeId} (hcurrent : P current)
    (hok : t.climb link start fuel seen current = .ok ids) : ids ≠ [] ∧ ∀ i ∈ ids, P i := by
  induction fuel generalizing seen current ids with
  | zero => exact absurd hok (by simp [climb])
  | succ fuel ih =>
    rw [climb] at hok
    split at hok
    · exact absurd hok (by simp)
    · split at hok
      · exact absurd hok (by simp)
      · rename_i n hn
        split at hok
        · rw [← Except.ok.inj hok]
          exact ⟨List.cons_ne_nil _ _, by simpa using hcurrent⟩
        · rename_i next hnext
          obtain ⟨above, habove, hok⟩ := exists_of_bind hok
          rw [← Except.ok.inj hok]
          refine ⟨List.cons_ne_nil _ _, fun i hi ↦ ?_⟩
          rcases List.mem_cons.1 hi with rfl | hi
          · exact hcurrent
          · exact (ih (hclosed _ n hcurrent hn next hnext) habove).2 i hi

theorem of_documentOf (hclosed : ∀ i n, P i → t.get? i = some n → ∀ p, n.parent = some p → P p)
    {i root : NodeId} (hi : P i) (hok : t.documentOf i = .ok root) : P root := by
  obtain ⟨above, habove, hok⟩ := exists_of_bind hok
  obtain ⟨hne, hall⟩ := forall_of_climb hclosed hi habove
  rw [← Except.ok.inj hok, List.getLastD_eq_getLast?, List.getLast?_eq_some_getLast hne]
  exact hall _ (List.getLast_mem hne)

end NodeTree

/-! ### The nodes of a document -/

namespace Ingest

variable {t : NodeTree} {p : Provider}

/-- Elements that are to be met below new nodes. -/
def Below (t : NodeTree) (tasks : List Task) : Prop :=
  ∀ task ∈ tasks, t.size ≤ task.parent ∧ t.size ≤ task.layoutParent

theorem below_tasks (p : Provider) {parent layoutParent : Nat} (hparent : t.size ≤ parent)
    (hlayout : t.size ≤ layoutParent) (element : Handle) :
    Below t (tasks p parent layoutParent element) := fun task htask ↦ by
  obtain ⟨c, -, rfl⟩ := List.mem_map.1 htask
  exact ⟨hparent, hlayout⟩

theorem sprouted_grafted {t' : NodeTree} (h : Sprouted t t') (kind : NodeKind) (tag : String)
    {parent : Nat} {layoutParent : Option NodeId} (hparent : t.size ≤ parent)
    (hlayout : ∀ l, layoutParent = some l → t.size ≤ l) :
    Sprouted t (grafted t' kind tag parent layoutParent) :=
  (h.alloc kind tag).attach hparent h.size_le hlayout

theorem sprouted_fill {s : State} (h : Sprouted t s.tree) {id : Nat} (hid : t.size ≤ id)
    (element : Handle) (m : BoxMeasure) : Sprouted t (fill s id element m).tree := by
  rw [fill]
  dsimp only
  rw [tree_report]
  exact h.modify_of_refs hid fun _ ↦ rfl

section

variable {s : State} (h : Sprouted t s.tree) {task : Task} (hparent : t.size ≤ task.parent)
  (hlayout : t.size ≤ task.layoutParent)

include h hparent

theorem sprouted_meetUnmeasured (e : ProviderError) :
    Sprouted t (meetUnmeasured s task e).tree :=
  (sprouted_grafted h .element "" hparent (by simp)).modify_of_refs h.size_le fun _ ↦ rfl

theorem sprouted_elementNode (m : BoxMeasure) {layoutParent : Option NodeId}
    (hlayout : ∀ l, layoutParent = some l → t.size ≤ l) :
    Sprouted t (elementNode s task m layoutParent).tree :=
  sprouted_fill (sprouted_grafted h .element (Text.asciiLower m.tag) hparent hlayout) h.size_le
    task.element m

theorem sprouted_hide (m : BoxMeasure) :
    Sprouted t (hide (elementNode s task m none) s.tree.size).tree :=
  (sprouted_elementNode h hparent m (by simp)).modify_of_refs h.size_le fun _ ↦ rfl

include hlayout

theorem sprouted_meetText (m : BoxMeasure) : Sprouted t (meetText s task m).tree := by
  rw [meetText]
  dsimp only
  split
  · exact h
  · refine (sprouted_grafted h .text textTag hparent fun l hl ↦ ?_).modify_of_refs h.size_le
      fun _ ↦ rfl
    exact Option.some.inj hl ▸ hlayout

/-- **One element** is put below a new node, and so is what is inside it. -/
theorem sprouted_meet (p : Provider) :
    Sprouted t (meet p s task).1.tree ∧ Below t (meet p s task).2 := by
  have hnone : Below t [] := fun _ hmem ↦ absurd hmem List.not_mem_nil
  rw [meet]
  split
  · exact ⟨sprouted_meetUnmeasured h hparent _, hnone⟩
  · rename_i m _
    split
    · exact ⟨sprouted_meetText h hparent hlayout m, hnone⟩
    · rw [meetElement_eq]
      split
      · exact ⟨sprouted_hide h hparent m, hnone⟩
      · exact ⟨sprouted_hide h hparent m, below_tasks p h.size_le hlayout _⟩
      · exact ⟨sprouted_elementNode h hparent m fun l hl ↦ Option.some.inj hl ▸ hlayout,
          below_tasks p h.size_le h.size_le _⟩

end

theorem sprouted_walk (p : Provider) (fuel : Nat) {s : State} (h : Sprouted t s.tree)
    {ts : List Task} (hts : Below t ts) : Sprouted t (walk p fuel s ts).tree := by
  refine walk_keeps (I := fun s ↦ Sprouted t s.tree) (J := fun _ task ↦
    t.size ≤ task.parent ∧ t.size ≤ task.layoutParent) (fun s task h htask _ ↦ ?_) fuel h hts
  obtain ⟨hmeet, hinner⟩ := sprouted_meet (s := { s with
    visited := task.element :: s.visited }) h htask.1 htask.2 p
  exact ⟨hmeet, hinner, fun _ hother ↦ hother⟩

/-! ### After the walk -/

/-- A change at each node of a document changes new nodes only. -/
theorem sprouted_atEach {change : NodeTree → Node → NodeTree} {t' : NodeTree} {root : Nat}
    (hchange : ∀ t' n, Sprouted t t' → t'.get? n.id = some n → t.size ≤ n.id →
      Sprouted t (change t' n))
    (h : Sprouted t t') (hroot : t.size ≤ root) : Sprouted t (atEach change t' root) := by
  rw [atEach]
  split
  · exact h
  · rename_i ids hids
    have hnew : ∀ i ∈ ids, t.size ≤ i := forall_of_layoutSubtree (P := fun i ↦ t.size ≤ i)
      (fun i n hi hn c hc ↦ (h.new i n hi hn c (Node.mem_refs.2 (by simp [hc]))).1) hroot hids
    refine List.foldlRecOn ids _ h fun t' h i hi ↦ ?_
    split
    · rename_i n hn
      obtain rfl := id_of_get? hn
      exact hchange t' n h hn (hnew _ hi)
    · exact h

theorem sprouted_collapseText {t' : NodeTree} {n : Node} (h : Sprouted t t')
    (hn : t'.get? n.id = some n) (hid : t.size ≤ n.id) : Sprouted t (collapseText t' n) := by
  rcases collapseText_cases t' n with hsame | ⟨only, c, hrun, -, hcollapsed⟩
  · rwa [hsame]
  · rw [hcollapsed]
    have honly := (h.new n.id n hid hn only (Node.mem_refs.2 (by simp [hrun]))).1
    exact (h.cut hid fun _ ↦ by rfl).modify_of_refs honly fun _ ↦ by rfl

theorem sprouted_gatherOptions {t' : NodeTree} {n : Node} (h : Sprouted t t')
    (hn : t'.get? n.id = some n) (hid : t.size ≤ n.id) : Sprouted t (gatherOptions t' n) := by
  unfold gatherOptions
  split
  · have hoptions : ∀ c ∈ (t'.lookup n.children).filter
        (fun c ↦ c.tag == "option" || c.tag == "optgroup"), t.size ≤ c.id := by
      intro c hc
      obtain ⟨hmem, -⟩ := mem_lookup.1 (List.mem_filter.1 hc).1
      exact (h.new n.id n hid hn c.id (Node.mem_refs.2 (by simp [hmem]))).1
    have hexcluded := List.foldlRecOn (motive := Sprouted t)
      ((t'.lookup n.children).filter fun c ↦ c.tag == "option" || c.tag == "optgroup")
      (fun t c ↦ t.modify c.id fun c ↦ { c with excluded := true }) h
      fun t' h c hc ↦ h.modify_of_refs (hoptions c hc) fun _ ↦ rfl
    exact hexcluded.cut hid fun _ ↦ by rfl
  · exact h

/-- The target of a label is found in its own document. -/
theorem sprouted_bindCompanion {t' : NodeTree} (ht : Sprouted .empty t) {root : Nat}
    (hroot : t.size ≤ root) {n : Node} (h : Sprouted t t') (hid : t.size ≤ n.id) :
    Sprouted t (bindCompanion root t' n) := by
  rw [bindCompanion]
  split
  · split
    · rename_i target htarget
      obtain ⟨sourceId, -, hfound⟩ := Option.bind_eq_some_iff.1 htarget
      obtain ⟨m, hm, rfl⟩ := Option.map_eq_some_iff.1 hfound
      obtain ⟨i, hi⟩ := List.mem_iff_getElem?.1 (List.mem_of_find?_eq_some hm)
      rw [NodeTree.toList, Array.getElem?_toList] at hi
      have hget : t'.get? m.id = some m := t'.numbered i m hi ▸ hi
      have hdocument := List.find?_some hm
      rw [Bool.and_eq_true] at hdocument
      replace hdocument := hdocument.2
      -- a node from before would be in a document from before
      have hnew : t.size ≤ m.id := by
        refine Nat.le_of_not_lt fun hlt ↦ ?_
        split at hdocument
        · rename_i document hclimb
          have hold : document < t.size := of_documentOf (P := fun i ↦ i < t.size)
            (fun i n hi hn p hp ↦ by
              rw [h.old i hi] at hn
              exact ht.refs_lt hn p (Node.mem_refs.2 (.inl hp))) hlt hclimb
          rw [beq_iff_eq.1 hdocument] at hold
          exact absurd hroot (Nat.not_le.2 hold)
        · exact absurd hdocument (by simp)
      refine h.modify hid fun l _ r hr ↦ ?_
      rw [Node.mem_refs] at hr ⊢
      rcases hr with hr | hr | hr | hr | hr
      · exact .inl (.inl hr)
      · exact .inl (.inr (.inl hr))
      · exact .inr (Option.some.inj hr ▸ ⟨hnew, lt_size_of_get? hget⟩)
      · exact .inl (.inr (.inr (.inr (.inl hr))))
      · exact .inl (.inr (.inr (.inr (.inr hr))))
    · exact h
  · exact h

/-- **The nodes of one more document** refer to each other only, and leave the others as they
are. -/
theorem sprouted_document {t' : NodeTree} {warned warned' : List String} {element : Handle}
    {report : IngestReport} (ht : Sprouted .empty t)
    (hdocument : document p t warned element = .ok (report, t', warned')) :
    Sprouted t t' ∧ ∀ root, report.root = some root → root = t.size := by
  rcases document_cases hdocument with ⟨hnone, -, rfl, -⟩ | ⟨m, -, hsome, -, rfl, -⟩
  · exact ⟨.refl t', fun root hroot ↦ absurd (hnone.symm.trans hroot) (by simp)⟩
  · refine ⟨?_, fun root hroot ↦ Option.some.inj (hroot.symm.trans hsome)⟩
    have hroot : t.size ≤ t.size := Nat.le_refl _
    have hfilled : Sprouted t (start t warned element m).tree :=
      sprouted_fill ((Sprouted.refl t).alloc .root m.tag) hroot element m
    have hwalk := sprouted_walk p (bound p element) hfilled
      (below_tasks p hroot hroot element)
    have hcollapsed := sprouted_atEach (fun t' n h hn hid ↦ sprouted_collapseText h hn hid) hwalk
      hroot
    have hgathered := sprouted_atEach (fun t' n h hn hid ↦ sprouted_gatherOptions h hn hid)
      hcollapsed hroot
    exact sprouted_atEach (fun t' n h _ hid ↦ sprouted_bindCompanion ht hroot h hid) hgathered
      hroot

end Ingest

end ViewCompiler
