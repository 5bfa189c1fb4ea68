import ViewCompiler.Proofs.Layout.Sown

/-!
# Making nodes keeps trees sown

Every step of the walk through a document makes one node and attaches it, and every change after the
walk empties a run and excludes what was in it. So a tree that is sown is sown again when one more
document has been made into nodes (`Ingest.sown_document`), and the nodes that were there keep their
kinds and runs.

What the walk has to know of an element is where it goes: the node whose run it joins is the node of
its parent, unless the parent has no box of its own (`Sown.Attachable`).
-/

namespace ViewCompiler

open NodeTree Sown

variable {t t' : NodeTree}

/-- A node that takes part in the layout: a root, or a member of a run at some time. -/
def NodeTree.TakesPart (t : NodeTree) (i : NodeId) : Prop :=
  ∃ l, t.links? i = some l ∧ (l.kind = .root ∨ l.documentParent ≠ none)

theorem NodeTree.Kept.takesPart (h : Kept t t') {i : NodeId} (hi : t.TakesPart i) :
    t'.TakesPart i := by
  obtain ⟨l, hl, hin⟩ := hi
  obtain ⟨l', hl', hkind, hparent⟩ := h i l hl
  exact ⟨l', hl', by rwa [hkind, hparent]⟩

/-- A tree that has grown or been cut, and is still sown. -/
structure Grown (t t' : NodeTree) : Prop where
  sown : Sown t'
  kept : Kept t t'

namespace Grown

theorem refl (h : Sown t) : Grown t t := ⟨h, .refl t⟩

theorem trans {t'' : NodeTree} (h : Grown t t') (h' : Grown t' t'') : Grown t t'' :=
  ⟨h'.sown, h.kept.trans h'.kept⟩

theorem of_unmoved (h : Sown t) (hu : Unmoved t t') : Grown t t' := ⟨h.of_unmoved hu, hu.kept⟩

end Grown

namespace Sown

/-- Excluding a node. -/
theorem pruned_exclude (t : NodeTree) (id : NodeId) {f : Node → Node}
    (hlinks : ∀ n, (f n).links = { n.links with excluded := true })
    (hplace : ∀ n, (f n).place = n.place) : Pruned none [id] t (t.modify id f) where
  links i := by
    rw [links?_modify_of t id (fun l ↦ { l with excluded := true }) hlinks]
    cases t.links? i <;> by_cases h : i = id <;> simp [h]
  place i := place_modify_eq t id hplace i

/-- Emptying the run of a node. -/
theorem pruned_cut (t : NodeTree) (id : NodeId) {f : Node → Node}
    (hlinks : ∀ n, (f n).links = { n.links with layoutChildren := [] })
    (hplace : ∀ n, (f n).place = n.place) : Pruned (some id) [] t (t.modify id f) where
  links i := by
    rw [links?_modify_of t id (fun l ↦ { l with layoutChildren := [] }) hlinks]
    cases t.links? i <;> by_cases h : i = id <;> simp [h, eq_comm (a := id)]
  place i := place_modify_eq t id hplace i

theorem pruned_foldl_exclude (t : NodeTree) (ns : List Node) :
    Pruned none (ns.map Node.id) t
      (ns.foldl (fun t n ↦ t.modify n.id fun n ↦ { n with excluded := true }) t) := by
  induction ns generalizing t with
  | nil => exact .refl t
  | cons n r ih =>
    exact (pruned_exclude t n.id (fun _ ↦ by rfl) (fun _ ↦ by rfl)).trans (ih _) (.inl rfl)

/-- A new node that is excluded joins no run. -/
theorem grown_graft_exclude (h : Sown t) {kind : NodeKind} (tag : String)
    {parent layoutParent : NodeId} (hat : Attachable t parent layoutParent)
    (hkind : kind = .element ∨ kind = .text) {t₁ t' : NodeTree}
    (hu : Unmoved (grafted t kind tag parent none) t₁) (hp : Pruned none [t.size] t₁ t') :
    Grown t t' := by
  have hsown : Sown (grafted t kind tag parent none) := h.graft tag hat hkind false
  have hlt : ∀ p, none = some p → p < t.size := fun p hp ↦ absurd hp (by simp)
  have hlinks : t₁.links? t.size = some ⟨kind, t.depthOf parent + 1, false, none, [], []⟩ := by
    rw [hu.links, links?_grafted _ _ hat.parent_lt hlt, if_pos rfl]
    rfl
  refine ⟨(hsown.of_unmoved hu).prune hp fun i hi ↦ ?_,
    ((kept_grafted hat.parent_lt hlt).trans hu.kept).trans hp.kept⟩
  rw [List.mem_singleton.1 hi]
  refine ⟨?_, fun p hmem ↦ ?_⟩
  · rw [isTop, kind?, hlinks]
    rcases hkind with rfl | rfl <;> rfl
  · rw [hu.extended.layoutRun_eq, layoutRun_grafted hat.parent_lt hlt, if_neg (by simp)] at hmem
    exact absurd hmem (h.not_mem_layoutRun (Nat.le_refl _) p)

end Sown

namespace Ingest

/-! ### Elements -/

theorem tree_report (s : State) (errors : List StyleError) : (report s errors).tree = s.tree := by
  rw [report]
  induction errors generalizing s with
  | nil => rfl
  | cons e r ih =>
    rw [List.foldl_cons, ih]
    split <;> rfl

theorem unmoved_fill (s : State) (id : NodeId) (element : Handle) (m : BoxMeasure) :
    Unmoved s.tree (fill s id element m).tree := by
  rw [fill]
  dsimp only
  rw [tree_report]
  exact unmoved_modify _ id (fun _ ↦ by rfl) (fun _ ↦ by rfl)

/-- Where the elements that are to be met go. -/
def Ready (t : NodeTree) (tasks : List Task) : Prop :=
  ∀ task ∈ tasks, Attachable t task.parent task.layoutParent

theorem Ready.kept {tasks : List Task} (h : Ready t tasks) (hkept : Kept t t') : Ready t' tasks :=
  fun task htask ↦ (h task htask).kept hkept

theorem ready_tasks (p : Provider) {parent layoutParent : NodeId}
    (h : Attachable t parent layoutParent) (element : Handle) :
    Ready t (tasks p parent layoutParent element) := fun task htask ↦ by
  obtain ⟨child, -, rfl⟩ := List.mem_map.1 htask
  exact h

/-- A node takes its own run. -/
theorem attachable_self {i : NodeId} (hi : i < t.size) : Attachable t i i :=
  ⟨hi, hi, fun _ _ _ ↦ rfl⟩

theorem meetUnmeasured_spec {s : State} {task : Task} (h : Sown s.tree)
    (hat : Attachable s.tree task.parent task.layoutParent) (e : ProviderError) :
    Grown s.tree (meetUnmeasured s task e).tree :=
  h.grown_graft_exclude "" hat (.inl rfl) (.refl _)
    (Sown.pruned_exclude _ _ (fun _ ↦ by rfl) (fun _ ↦ by rfl))

theorem meetText_spec {s : State} {task : Task} (h : Sown s.tree)
    (hat : Attachable s.tree task.parent task.layoutParent) (m : BoxMeasure) :
    Grown s.tree (meetText s task m).tree := by
  rw [meetText]
  dsimp only
  split
  · exact .refl h
  · have hgraft := h.graft textTag hat (.inr rfl) true
    have hlt : ∀ p, some task.layoutParent = some p → p < s.tree.size :=
      fun p hp ↦ Option.some.inj hp ▸ hat.layoutParent_lt
    refine Grown.trans ⟨hgraft, kept_grafted hat.parent_lt hlt⟩ (.of_unmoved hgraft ?_)
    exact unmoved_modify _ _ (fun _ ↦ by rfl) (fun _ ↦ by rfl)

/-- The node of an element with what was measured, in a run or in none. -/
def elementNode (s : State) (task : Task) (m : BoxMeasure) (layoutParent : Option NodeId) : State :=
  fill { s with
    tree := grafted s.tree .element (Text.asciiLower m.tag) task.parent layoutParent }
    s.tree.size task.element m

theorem unmoved_elementNode (s : State) (task : Task) (m : BoxMeasure)
    (layoutParent : Option NodeId) :
    Unmoved (grafted s.tree .element (Text.asciiLower m.tag) task.parent layoutParent)
      (elementNode s task m layoutParent).tree :=
  unmoved_fill { s with
    tree := grafted s.tree .element (Text.asciiLower m.tag) task.parent layoutParent } _ _ _

section ElementNode

variable {s : State} {task : Task} (h : Sown s.tree)
  (hat : Attachable s.tree task.parent task.layoutParent) (m : BoxMeasure)

include hat

theorem links?_elementNode {layoutParent : Option NodeId}
    (hlt : ∀ p, layoutParent = some p → p < s.tree.size) :
    ∃ depth, (elementNode s task m layoutParent).tree.links? s.tree.size =
      some ⟨.element, depth, false, layoutParent, [], []⟩ := by
  refine ⟨s.tree.depthOf (layoutParent.getD task.parent) + 1, ?_⟩
  rw [(unmoved_elementNode s task m layoutParent).links, links?_grafted _ _ hat.parent_lt hlt,
    if_pos rfl]

include h

theorem grown_elementNode : Grown s.tree (elementNode s task m (some task.layoutParent)).tree := by
  have hgraft := h.graft (Text.asciiLower m.tag) hat (.inl rfl) true
  have hlt : ∀ p, some task.layoutParent = some p → p < s.tree.size :=
    fun p hp ↦ Option.some.inj hp ▸ hat.layoutParent_lt
  exact Grown.trans ⟨hgraft, kept_grafted hat.parent_lt hlt⟩
    (.of_unmoved hgraft (unmoved_elementNode s task m _))

/-- An element without a box is excluded, and where the elements inside it go is not its own run. -/
theorem grown_elementNode_exclude :
    let t := (elementNode s task m none).tree.modify s.tree.size fun n ↦
      { n with excluded := true }
    Grown s.tree t ∧ Attachable t s.tree.size task.layoutParent := by
  intro t
  have hgrown : Grown s.tree t := h.grown_graft_exclude (Text.asciiLower m.tag) hat (.inl rfl)
    (unmoved_elementNode s task m none)
    (Sown.pruned_exclude _ _ (fun _ ↦ by rfl) (fun _ ↦ by rfl))
  obtain ⟨depth, hnode⟩ := links?_elementNode hat m fun p (hp : none = some p) ↦
    absurd hp (by simp)
  have hlinks : t.links? s.tree.size = some ⟨.element, depth, true, none, [], []⟩ := by
    rw [links?_modify_of _ _ (fun l ↦ { l with excluded := true }) (fun _ ↦ by rfl), if_pos rfl,
      hnode, Option.map_some]
  refine ⟨hgrown, lt_size_of_links? hlinks, hgrown.kept.lt_size hat.layoutParent_lt,
    fun l hl hin ↦ ?_⟩
  rw [← Option.some.inj (hlinks.symm.trans hl)] at hin
  simp at hin

/-- A node with a box of its own takes the elements inside into its run. -/
theorem meetElement_spec (p : Provider) :
    Grown s.tree (meetElement p s task m).1.tree ∧
      Ready (meetElement p s task m).1.tree (meetElement p s task m).2 := by
  obtain ⟨hexclude, hoff⟩ := grown_elementNode_exclude h hat m
  have hown := grown_elementNode h hat m
  obtain ⟨depth, hnode⟩ := links?_elementNode hat m fun p (hp : some task.layoutParent = some p) ↦
    Option.some.inj hp ▸ hat.layoutParent_lt
  unfold meetElement
  cases hd : (Style.ofMap m.style).display <;> dsimp only
  case none => exact ⟨hexclude, fun task htask ↦ absurd htask List.not_mem_nil⟩
  case contents => exact ⟨hexclude, ready_tasks p hoff _⟩
  all_goals exact ⟨hown, ready_tasks p (attachable_self (lt_size_of_links? hnode)) _⟩

end ElementNode

/-- **One element.** -/
theorem meet_spec {p : Provider} {s : State} {task : Task} (h : Sown s.tree)
    (hat : Attachable s.tree task.parent task.layoutParent) :
    Grown s.tree (meet p s task).1.tree ∧ Ready (meet p s task).1.tree (meet p s task).2 := by
  rw [meet]
  split
  · exact ⟨meetUnmeasured_spec h hat _, fun task htask ↦ absurd htask List.not_mem_nil⟩
  · split
    · exact ⟨meetText_spec h hat _, fun task htask ↦ absurd htask List.not_mem_nil⟩
    · exact meetElement_spec h hat _ p

/-! ### The walk -/

section Walk

variable {p : Provider}

/-- An element that has been met is passed over. -/
theorem walk_old {fuel : Nat} {s : State} {task : Task} (hold : task.element ∈ s.visited)
    (rest : List Task) : walk p (fuel + 1) s (task :: rest) = walk p fuel s rest := by
  rw [walk, if_pos (by simpa using hold)]

/-- The walk goes on with what is inside an element that is new. -/
theorem walk_new {fuel : Nat} {s : State} {task : Task} (hnew : task.element ∉ s.visited)
    (rest : List Task) : walk p (fuel + 1) s (task :: rest) =
      walk p fuel (meet p { s with visited := task.element :: s.visited } task).1
        ((meet p { s with visited := task.element :: s.visited } task).2 ++ rest) := by
  rw [walk, if_neg (by simpa using hnew)]

/-- **What is kept when one element is met, the walk keeps.** `I` is about what has been made, and
`J` about an element that waits: it is true of those inside the one that is met, and stays true of
the others. -/
theorem walk_keeps {I : State → Prop} {J : State → Task → Prop}
    (hmeet : ∀ s task, I s → J s task → task.element ∉ s.visited →
      let made := meet p { s with visited := task.element :: s.visited } task
      I made.1 ∧ (∀ inner ∈ made.2, J made.1 inner) ∧ ∀ other, J s other → J made.1 other)
    (fuel : Nat) {s : State} {tasks : List Task} (h : I s) (hall : ∀ task ∈ tasks, J s task) :
    I (walk p fuel s tasks) := by
  induction fuel generalizing s tasks with
  | zero => cases tasks <;> exact h
  | succ fuel ih =>
    cases tasks with
    | nil => exact h
    | cons task rest =>
      have hrest : ∀ other ∈ rest, J s other := fun other hother ↦
        hall other (List.mem_cons_of_mem _ hother)
      by_cases hold : task.element ∈ s.visited
      · rw [walk_old hold]
        exact ih h hrest
      · obtain ⟨hmade, hinner, hothers⟩ := hmeet s task h (hall task List.mem_cons_self) hold
        rw [walk_new hold]
        exact ih hmade fun other hother ↦ (List.mem_append.1 hother).elim (hinner other)
          fun hother ↦ hothers other (hrest other hother)

/-- The same where it does not matter which elements are met. -/
theorem walk_keeps_made {I : State → Prop} (hmeet : ∀ s task, I s → task.element ∉ s.visited →
      I (meet p { s with visited := task.element :: s.visited } task).1)
    (fuel : Nat) {s : State} (tasks : List Task) (h : I s) : I (walk p fuel s tasks) :=
  walk_keeps (J := fun _ _ ↦ True)
    (fun s task hs _ hnew ↦ ⟨hmeet s task hs hnew, fun _ _ ↦ trivial, fun _ _ ↦ trivial⟩) fuel h
    fun _ _ ↦ trivial

end Walk

/-- **The walk through a document**, however many steps it is given. -/
theorem grown_walk (p : Provider) (fuel : Nat) {s : State} {tasks : List Task} (h : Sown s.tree)
    (hready : Ready s.tree tasks) : Grown s.tree (walk p fuel s tasks).tree := by
  refine walk_keeps (I := fun s' ↦ Grown s.tree s'.tree)
    (J := fun s' task ↦ Attachable s'.tree task.parent task.layoutParent)
    (fun s' task hgrown hat _ ↦ ?_) fuel (.refl h) hready
  obtain ⟨hmade, hinner⟩ := meet_spec (p := p)
    (s := { s' with visited := task.element :: s'.visited }) hgrown.sown hat
  exact ⟨hgrown.trans hmade, hinner, fun _ hother ↦ hother.kept hmade.kept⟩

/-! ### After the walk -/

theorem grown_foldl {f : NodeTree → NodeId → NodeTree}
    (hf : ∀ t i, Sown t → t.TakesPart i → Grown t (f t i)) {ids : List NodeId} (h : Sown t)
    (hids : ∀ i ∈ ids, t.TakesPart i) : Grown t (ids.foldl f t) := by
  induction ids generalizing t with
  | nil => exact .refl h
  | cons i r ih =>
    have hstep := hf t i h (hids i List.mem_cons_self)
    exact hstep.trans (ih hstep.sown fun j hj ↦
      hstep.kept.takesPart (hids j (List.mem_cons_of_mem _ hj)))

/-- **A change at each node below a root.** -/
theorem grown_atEach {change : NodeTree → Node → NodeTree} {root : NodeId} (h : Sown t)
    (hroot : t.TakesPart root)
    (hchange : ∀ t n, Sown t → t.get? n.id = some n → t.TakesPart n.id → Grown t (change t n)) :
    Grown t (atEach change t root) := by
  obtain ⟨o, rfl, ho⟩ := h.forest.forest.exists_outline root
  have hlt : o.id < t.size := by
    obtain ⟨l, hl, -⟩ := hroot
    exact lt_size_of_links? hl
  rw [atEach, h.forest.layoutSubtree_eq ho hlt]
  refine grown_foldl (fun t i ht hi ↦ ?_) h fun i hi ↦ ?_
  · cases hn : t.get? i with
    | none => exact .refl ht
    | some n =>
      have hid := id_of_get? hn
      exact hchange t n ht (hid.symm ▸ hn) (hid.symm ▸ hi)
  · rcases Relation.ReflTransGen.cases_tail ((Outline.mem_ids_iff ho).1 hi) with rfl | ⟨p, -, hp⟩
    · exact hroot
    · obtain ⟨l, hl, -, hparent, -⟩ := h.forest.member hp
      exact ⟨l, hl, .inr (by rw [hparent]; simp)⟩

/-- A text is taken over from the only node in a run, or nothing is changed. -/
theorem collapseText_cases (t : NodeTree) (n : Node) : collapseText t n = t ∨
    ∃ only c, n.layoutChildren = [only] ∧ t.get? only = some c ∧ collapseText t n =
      (t.modify n.id fun n ↦ { n with text := c.text, layoutChildren := [] }).modify only
        fun c ↦ { c with excluded := true } := by
  unfold collapseText
  split
  · rename_i only hrun
    split
    · rename_i c hc
      split
      · exact .inr ⟨only, c, hrun, hc, rfl⟩
      · exact .inl rfl
    · exact .inl rfl
  · exact .inl rfl

/-- The run is empty afterwards, and what was in it is excluded. -/
theorem pruned_collapsed (t : NodeTree) (i only : NodeId) (text : Option String) :
    Pruned (some i) [only] t ((t.modify i fun n ↦
      { n with text := text, layoutChildren := [] }).modify only fun c ↦
        { c with excluded := true }) :=
  (pruned_cut t i (fun _ ↦ by rfl) (fun _ ↦ by rfl)).trans
    (pruned_exclude _ only (fun _ ↦ by rfl) (fun _ ↦ by rfl)) (.inr rfl)

theorem grown_collapseText {n : Node} (h : Sown t) (hn : t.get? n.id = some n) :
    Grown t (collapseText t n) := by
  rcases collapseText_cases t n with hsame | ⟨only, c, hrun, -, hcollapsed⟩
  · rw [hsame]
    exact .refl h
  · rw [hcollapsed]
    have hp := pruned_collapsed t n.id only c.text
    have hmem : only ∈ t.layoutRun n.id := by
      rw [layoutRun_of_get? hn, hrun]
      exact List.mem_singleton_self _
    refine ⟨h.prune hp fun i hi ↦ ?_, hp.kept⟩
    rw [List.mem_singleton.1 hi]
    refine ⟨?_, fun p hp ↦ congrArg some (h.forest.forest.parent hmem hp)⟩
    rcases h.forest.kind?_of_mem hmem with hk | hk <;> rw [isTop, hk] <;> rfl

theorem grown_gatherOptions {n : Node} (h : Sown t) (hn : t.get? n.id = some n)
    (hpart : t.TakesPart n.id) : Grown t (gatherOptions t n) := by
  unfold gatherOptions
  split
  · have hp := (pruned_foldl_exclude t ((t.lookup n.children).filter fun c ↦
      c.tag == "option" || c.tag == "optgroup")).trans
        (pruned_cut _ n.id (f := fun m ↦ { m with
          entries := ((t.lookup n.children).filter fun c ↦
            c.tag == "option" || c.tag == "optgroup").filterMap Node.text
          layoutChildren := [] }) (fun _ ↦ by rfl) (fun _ ↦ by rfl)) (.inl rfl)
    refine ⟨h.prune hp fun i hi ↦ ?_, hp.kept⟩
    obtain ⟨c, hc, rfl⟩ := List.mem_map.1 (by simpa using hi :
      i ∈ ((t.lookup n.children).filter fun c ↦ c.tag == "option" || c.tag == "optgroup").map
        Node.id)
    obtain ⟨j, hj, hget⟩ := List.mem_filterMap.1 (List.mem_filter.1 hc).1
    obtain rfl := id_of_get? hget
    obtain ⟨l, hl, hin⟩ := hpart
    obtain ⟨m, hm, hkind, hparent⟩ := h.children n.id n.links (links?_of_get? hn)
      (by rwa [← Option.some.inj (hl.symm.trans (links?_of_get? hn))]) c.id hj
    refine ⟨by simp [isTop, kind?, hm, hkind], fun p hp ↦ ?_⟩
    have hrun := h.forest.documentParent hp
    rw [documentParent?, hm] at hrun
    rcases hparent with hnone | hsome
    · exact absurd (hnone.symm.trans hrun) (by simp)
    · exact hsome.symm.trans hrun
  · exact .refl h

theorem grown_bindCompanion (root : NodeId) (n : Node) (h : Sown t) :
    Grown t (bindCompanion root t n) := by
  unfold bindCompanion
  split
  · split
    · exact .of_unmoved h (unmoved_modify _ _ (fun _ ↦ by rfl) (fun _ ↦ by rfl))
    · exact .refl h
  · exact .refl h

theorem kind?_of_kept (h : Kept t t') {i : NodeId} {k : NodeKind} (hk : t.kind? i = some k) :
    t'.kind? i = some k := by
  obtain ⟨l, hl, rfl⟩ := Option.map_eq_some_iff.1 hk
  obtain ⟨l', hl', hkind, -⟩ := h i l hl
  rw [kind?, hl', Option.map_some, hkind]

/-! ### Documents -/

/-- The state that the walk through a document starts in: with a node for the root. -/
def start (t : NodeTree) (warned : List String) (element : Handle) (m : BoxMeasure) : State :=
  fill ⟨(t.alloc .root m.tag).2, [element], [], [], warned⟩ t.size element m

/-- The state at the end of the walk through a document. -/
def walked (p : Provider) (t : NodeTree) (warned : List String) (element : Handle)
    (m : BoxMeasure) : State :=
  walk p (bound p element) (start t warned element m) (tasks p t.size t.size element)

/-- What becomes of a document whose root makes a box. -/
theorem document_eq (t : NodeTree) (warned : List String) {p : Provider} {element : Handle}
    {m : BoxMeasure} (hm : p.measure element = .ok m)
    (hbox : ((Style.ofMap m.style).display == .none ||
      (Style.ofMap m.style).display == .contents) = false) :
    let s := walked p t warned element m
    let tree := atEach (bindCompanion t.size) (atEach gatherOptions
      (atEach collapseText s.tree t.size) t.size) t.size
    document p t warned element =
      .ok (⟨some t.size, tree.size - t.size, s.unmeasured, s.styleErrors⟩, tree, s.warned) := by
  intro s tree
  rw [document, hm]
  exact if_neg (by rw [hbox]; simp)

/-- **What becomes of a document.** Its root makes no box, or the walk through it is made, and the
changes after it. -/
theorem document_cases {p : Provider} {warned warned' : List String} {element : Handle}
    {report : IngestReport} (h : document p t warned element = .ok (report, t', warned')) :
    (report.root = none ∧ report.styleErrors = [] ∧ t' = t ∧ warned' = warned) ∨
      ∃ m, p.measure element = .ok m ∧ report.root = some t.size ∧
        report.styleErrors = (walked p t warned element m).styleErrors ∧
        t' = atEach (bindCompanion t.size) (atEach gatherOptions
          (atEach collapseText (walked p t warned element m).tree t.size) t.size) t.size ∧
        warned' = (walked p t warned element m).warned := by
  cases hm : p.measure element with
  | error e =>
    rw [document, hm] at h
    exact absurd h (by simp)
  | ok m =>
    cases hbox : (Style.ofMap m.style).display == .none ||
        (Style.ofMap m.style).display == .contents with
    | true =>
      rw [document, hm] at h
      dsimp only at h
      rw [if_pos hbox] at h
      obtain ⟨rfl, rfl, rfl⟩ : _ = report ∧ _ = t' ∧ _ = warned' := by simpa using h
      exact .inl ⟨rfl, rfl, rfl, rfl⟩
    | false =>
      rw [document_eq t warned hm hbox] at h
      obtain ⟨rfl, rfl, rfl⟩ : _ = report ∧ _ = t' ∧ _ = warned' := by simpa using h
      exact .inr ⟨m, rfl, rfl, rfl, rfl, rfl⟩

/-- **One more document.** Its root is a new node. -/
theorem grown_document {p : Provider} {warned warned' : List String} {element : Handle}
    {report : IngestReport} (h : Sown t)
    (hdocument : document p t warned element = .ok (report, t', warned')) :
    Grown t t' ∧ ∀ root, report.root = some root → t.size ≤ root ∧ t'.kind? root = some .root := by
  rcases document_cases hdocument with ⟨hnone, -, rfl, -⟩ | ⟨m, -, hsome, -, rfl, -⟩
  · exact ⟨.refl h, fun root hroot ↦ absurd (hnone.symm.trans hroot) (by simp)⟩
  · have halloc : Grown t (t.alloc .root m.tag).2 := ⟨h.alloc (by rfl) _, kept_alloc _ _ _⟩
    have hstart : Grown (t.alloc .root m.tag).2 (start t warned element m).tree :=
      .of_unmoved halloc.sown (unmoved_fill
        ⟨(t.alloc .root m.tag).2, [element], [], [], warned⟩ t.size element m)
    have hkind : (start t warned element m).tree.kind? t.size = some .root := by
      refine kind?_of_kept hstart.kept ?_
      rw [kind?, links?_alloc, if_pos rfl]
      rfl
    have hwalk := grown_walk p (bound p element) hstart.sown (ready_tasks p (attachable_self
      (lt_size_of_links? (Option.map_eq_some_iff.1 hkind).choose_spec.1)) element)
    have hpart : ∀ {t'}, Kept _ t' → t'.TakesPart t.size := fun hkept ↦ by
      obtain ⟨l, hl, hroot⟩ := Option.map_eq_some_iff.1 (kind?_of_kept hkept hkind)
      exact ⟨l, hl, .inl hroot⟩
    have hcollapse := grown_atEach hwalk.sown (hpart hwalk.kept)
      fun t n ht hn _ ↦ grown_collapseText ht hn
    have hgather := grown_atEach hcollapse.sown (hpart (hwalk.trans hcollapse).kept)
      fun t n ht hn hp ↦ grown_gatherOptions ht hn hp
    have hbind := grown_atEach hgather.sown (hpart ((hwalk.trans hcollapse).trans hgather).kept)
      fun _ n ht _ _ ↦ grown_bindCompanion t.size n ht
    have hall := ((hwalk.trans hcollapse).trans hgather).trans hbind
    refine ⟨(halloc.trans hstart).trans hall, fun root hroot ↦ ?_⟩
    obtain rfl := Option.some.inj (hsome.symm.trans hroot)
    exact ⟨Nat.le_refl _, kind?_of_kept hall.kept hkind⟩

end Ingest

end ViewCompiler
