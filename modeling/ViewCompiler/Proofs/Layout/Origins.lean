import ViewCompiler.Proofs.Layout.Planting
import ViewCompiler.Proofs.Layout.Steady

/-!
# Where nodes come from

A node that is made of an element has from it the attributes of the source, and that is all that
can be said of it until the layout is decided on: it contains nothing, no baseline is that of the
node, and it has no style (`Origin.Of`). Every node of a document is made of an element in that way,
and no two of them of the same element, since an element is met once (`Ingest.sourced_document`).
-/

namespace ViewCompiler

open NodeTree Sown

/-- What a node has from its element, and what is decided about it later on. -/
structure Origin where
  element : Option Handle
  attributes : SortedMap String String
  container : Container
  /-- Whether others are aligned with it. -/
  anchor : Bool
  styleRef : Option String

/-- A node that has nothing from an element. -/
def Origin.blank : Origin := ⟨none, .empty, .leaf, false, none⟩

/-- **What the node of an element has** before the layout is decided on. -/
structure Origin.Of (p : Provider) (h : Handle) (o : Origin) : Prop where
  element : o.element = some h
  attributes : o.attributes = .empty ∨ ∃ m, p.measure h = .ok m ∧ o.attributes = m.attributes
  container : o.container = .leaf
  anchor : o.anchor = false
  styleRef : o.styleRef = none

def Node.origin (n : Node) : Origin :=
  ⟨n.element, n.sourceAttributes, n.container, n.flags.contains .baselineAnchor, n.styleRef⟩

namespace NodeTree

variable {t : NodeTree}

def origin? (t : NodeTree) (i : NodeId) : Option Origin := (t.get? i).map Node.origin

theorem origin?_of_get? {i : NodeId} {n : Node} (h : t.get? i = some n) :
    t.origin? i = some n.origin := by
  rw [origin?, h, Option.map_some]

theorem lt_size_of_origin? {i : NodeId} {o : Origin} (h : t.origin? i = some o) : i < t.size := by
  obtain ⟨n, hn, -⟩ := Option.map_eq_some_iff.1 h
  exact lt_size_of_get? hn

/-- A change of a node changes its origin only. -/
theorem origin?_modify_of (t : NodeTree) (id : NodeId) {f : Node → Node} (g : Origin → Origin)
    (hf : ∀ n, (f n).origin = g n.origin) (i : NodeId) :
    (t.modify id f).origin? i = if i = id then (t.origin? i).map g else t.origin? i :=
  view?_modify_of t id g hf i

/-- Most changes leave it as it is. -/
theorem origin?_modify (t : NodeTree) (id : NodeId) {f : Node → Node}
    (hf : ∀ n, (f n).origin = n.origin) (i : NodeId) : (t.modify id f).origin? i = t.origin? i :=
  view?_modify t id hf i

theorem origin?_alloc (t : NodeTree) (kind : NodeKind) (tag : String) (i : NodeId) :
    (t.alloc kind tag).2.origin? i = if i = t.size then some .blank else t.origin? i := by
  rw [origin?, origin?, get?_alloc]
  split
  · have hmarks : (Node.new t.size kind tag).flags.contains .baselineAnchor = false := by
      rw [Node.new]
      dsimp only
      split <;> simp
    rw [Option.map_some, Node.origin, hmarks]
    rfl
  · rfl

/-- The structure has no part in where a node comes from. -/
theorem steady_origin : Steady Node.origin :=
  ⟨fun _ _ ↦ rfl, fun _ _ ↦ rfl, fun _ _ ↦ rfl, fun _ _ _ _ _ ↦ rfl, fun _ ↦ rfl, fun _ _ ↦ rfl,
    fun _ _ ↦ rfl, fun _ _ ↦ rfl⟩

theorem origin?_attach (t : NodeTree) (parent child : NodeId) (layoutParent : Option NodeId)
    (i : NodeId) : (t.attach parent child layoutParent).2.origin? i = t.origin? i :=
  steady_origin.attach t parent child layoutParent i

theorem origin?_grafted (t : NodeTree) (kind : NodeKind) (tag : String) (parent : NodeId)
    (layoutParent : Option NodeId) (i : NodeId) :
    (grafted t kind tag parent layoutParent).origin? i =
      if i = t.size then some .blank else t.origin? i := by
  rw [grafted, origin?_attach, origin?_alloc]

end NodeTree

namespace Ingest

variable {p : Provider} {t : NodeTree} {s : State}

/-! ### One element -/

theorem origin?_fill (s : State) (id : NodeId) (element : Handle) (m : BoxMeasure) (i : NodeId) :
    (fill s id element m).tree.origin? i = if i = id then
      (s.tree.origin? i).map fun o ↦ { o with element := some element, attributes := m.attributes }
      else s.tree.origin? i := by
  -- the mark of what is not visible is another one than that of a baseline
  have hanchor : ∀ (b : Bool) (f : Flags),
      (if b then f.insert .hidden else f).contains .baselineAnchor =
        f.contains .baselineAnchor := fun b f ↦ by cases b <;> simp
  rw [fill]
  dsimp only
  rw [tree_report]
  refine origin?_modify_of s.tree id
    (fun o ↦ { o with element := some element, attributes := m.attributes }) (fun n ↦ ?_) i
  rw [Node.origin, Node.origin]
  dsimp only
  rw [hanchor]

theorem origin?_hide (s : State) (id i : NodeId) :
    (hide s id).tree.origin? i = s.tree.origin? i :=
  origin?_modify s.tree id (fun _ ↦ by rfl) i

/-- The nodes of a tree are those of another one, and at most a new one, made of an element. -/
structure Makes (p : Provider) (element : Handle) (t t' : NodeTree) : Prop where
  size_le : t.size ≤ t'.size
  node : ∀ i o, t'.origin? i = some o → t.origin? i = some o ∨ i = t.size ∧ o.Of p element

theorem Makes.of_new {element : Handle} {t' : NodeTree} {o : Origin} (hsize : t.size ≤ t'.size)
    (hnode : ∀ i, t'.origin? i = if i = t.size then some o else t.origin? i)
    (hof : o.Of p element) : Makes p element t t' := by
  refine ⟨hsize, fun i o' ho ↦ ?_⟩
  rw [hnode] at ho
  split at ho
  · rename_i heq
    exact .inr ⟨heq, Option.some.inj ho ▸ hof⟩
  · exact .inl ho

theorem makes_elementNode (s : State) (task : Task) {m : BoxMeasure}
    (hm : p.measure task.element = .ok m) (run : Option NodeId) :
    Makes p task.element s.tree (elementNode s task m run).tree := by
  refine .of_new
    (o := { Origin.blank with element := some task.element, attributes := m.attributes }) ?_
    (fun i ↦ ?_) ⟨rfl, .inr ⟨m, hm, rfl⟩, rfl, rfl, rfl⟩
  · rw [(unmoved_elementNode s task m run).size_eq, size_grafted]
    exact Nat.le_succ _
  · rw [elementNode, origin?_fill]
    dsimp only
    rw [origin?_grafted]
    split <;> rfl

/-- The root of a document. -/
theorem makes_root (t : NodeTree) {element : Handle} {m : BoxMeasure}
    (hm : p.measure element = .ok m) (warned : List String) : Makes p element t
      (fill ⟨(t.alloc .root m.tag).2, [element], [], [], warned⟩ t.size element m).tree := by
  refine .of_new (o := { Origin.blank with element := some element, attributes := m.attributes }) ?_
    (fun i ↦ ?_) ⟨rfl, .inr ⟨m, hm, rfl⟩, rfl, rfl, rfl⟩
  · rw [(unmoved_fill _ _ _ _).size_eq, size_alloc]
    exact Nat.le_succ _
  · rw [origin?_fill]
    dsimp only
    rw [origin?_alloc]
    split <;> rfl

/-- A new node that has nothing from its element but the element itself. -/
theorem makes_graft {kind : NodeKind} {tag : String} {parent : NodeId}
    {layoutParent : Option NodeId} {element : Handle} {f : Node → Node}
    (hf : ∀ n, (f n).origin = { n.origin with element := some element }) :
    Makes p element t ((grafted t kind tag parent layoutParent).modify t.size f) := by
  refine .of_new (o := { Origin.blank with element := some element }) ?_ (fun i ↦ ?_)
    ⟨rfl, .inl rfl, rfl, rfl, rfl⟩
  · rw [size_modify, size_grafted]
    exact Nat.le_succ _
  · rw [origin?_modify_of _ _ (fun o ↦ { o with element := some element }) hf, origin?_grafted]
    split <;> rfl

/-- **An element makes one node at most.** -/
theorem makes_meet (s : State) (task : Task) :
    Makes p task.element s.tree (meet p s task).1.tree := by
  rw [meet]
  split
  · exact makes_graft fun _ ↦ by rfl
  · rename_i m hm
    split
    · rw [meetText]
      dsimp only
      split
      · exact ⟨Nat.le_refl _, fun _ _ ho ↦ .inl ho⟩
      · exact makes_graft fun _ ↦ by rfl
    · have hhidden : ∀ run, Makes p task.element s.tree
          (hide (elementNode s task m run) s.tree.size).tree := fun run ↦ by
        have hmakes := makes_elementNode s task hm run
        refine ⟨?_, fun i o ho ↦ hmakes.node i o (by rwa [origin?_hide] at ho)⟩
        rw [hide, size_modify]
        exact hmakes.size_le
      rw [meetElement_eq]
      split
      · exact hhidden none
      · exact hhidden none
      · exact makes_elementNode s task hm _

/-! ### The walk -/

/-- **Where the nodes come from** that have been made since the tree was another one: each of an
element, and no two of the same one. -/
structure Sourced (p : Provider) (t t' : NodeTree) (met : List Handle) : Prop where
  size_le : t.size ≤ t'.size
  node : ∀ i o, t'.origin? i = some o →
    t.origin? i = some o ∨ t.size ≤ i ∧ ∃ h ∈ met, o.Of p h
  once : ∀ i j o o', t.size ≤ i → t.size ≤ j → t'.origin? i = some o → t'.origin? j = some o' →
    o.element = o'.element → i = j

namespace Sourced

variable {t' t'' : NodeTree} {met : List Handle}

theorem refl (p : Provider) (t : NodeTree) : Sourced p t t [] where
  size_le := Nat.le_refl _
  node _ _ ho := .inl ho
  once _ _ _ _ hi _ ho _ _ := absurd (lt_size_of_origin? ho) (Nat.not_lt.2 hi)

/-- A node that has come is one of an element. -/
theorem of_new (h : Sourced p t t' met) {i : NodeId} {o : Origin} (hi : t.size ≤ i)
    (ho : t'.origin? i = some o) : ∃ x ∈ met, o.Of p x := by
  refine (h.node i o ho).elim (fun hold ↦ ?_) And.right
  exact absurd (lt_size_of_origin? hold) (Nat.not_lt.2 hi)

/-- Nodes change, but not where they come from. -/
theorem congr (h : Sourced p t t' met) (hsize : t''.size = t'.size)
    (hsame : ∀ i, t''.origin? i = t'.origin? i) : Sourced p t t'' met where
  size_le := hsize ▸ h.size_le
  node i o ho := h.node i o (hsame i ▸ ho)
  once i j o o' hi hj ho ho' := h.once i j o o' hi hj (hsame i ▸ ho) (hsame j ▸ ho')

/-- **One more element**, which has not been met before. -/
theorem makes (h : Sourced p t t' met) {element : Handle} (hnew : element ∉ met)
    (hmakes : Makes p element t' t'') : Sourced p t t'' (element :: met) where
  size_le := Nat.le_trans h.size_le hmakes.size_le
  node i o ho := by
    rcases hmakes.node i o ho with ho | ⟨rfl, hof⟩
    · refine (h.node i o ho).imp_right fun ⟨hi, x, hx, hof⟩ ↦ ?_
      exact ⟨hi, x, List.mem_cons_of_mem _ hx, hof⟩
    · exact .inr ⟨h.size_le, element, List.mem_cons_self, hof⟩
  once i j o o' hi hj ho ho' heq := by
    -- what was there before is of an element that has been met
    have hmet : ∀ {k : NodeId} {e e' : Origin}, t.size ≤ k → t'.origin? k = some e →
        e'.Of p element → e.element ≠ e'.element := fun hk he he' heq ↦ by
      obtain ⟨x, hx, hof⟩ := h.of_new hk he
      rw [hof.element, he'.element] at heq
      exact hnew (Option.some.inj heq ▸ hx)
    rcases hmakes.node i o ho with ho | ⟨rfl, hof⟩
    · rcases hmakes.node j o' ho' with ho' | ⟨rfl, hof'⟩
      · exact h.once i j o o' hi hj ho ho' heq
      · exact absurd heq (hmet hi ho hof')
    · rcases hmakes.node j o' ho' with ho' | ⟨rfl, -⟩
      · exact absurd heq.symm (hmet hj ho' hof)
      · rfl

end Sourced

/-- **The walk through a document.** -/
theorem sourced_walk (fuel : Nat) (tasks : List Task) (h : Sourced p t s.tree s.visited) :
    Sourced p t (walk p fuel s tasks).tree (walk p fuel s tasks).visited := by
  refine walk_keeps_made (I := fun s ↦ Sourced p t s.tree s.visited) (fun s task h hnew ↦ ?_)
    fuel tasks h
  rw [visited_meet]
  exact h.makes hnew (makes_meet { s with visited := task.element :: s.visited } task)

/-- The root is the first element that is met. -/
theorem sourced_walk_root {element : Handle} (hroot : Makes p element t s.tree)
    (hvisited : s.visited = [element]) (fuel : Nat) (tasks : List Task) :
    Sourced p t (walk p fuel s tasks).tree (walk p fuel s tasks).visited :=
  sourced_walk fuel tasks (hvisited ▸ (Sourced.refl p t).makes List.not_mem_nil hroot)

/-! ### After the walk -/

/-- Where nodes come from is the same in two trees. -/
def SameOrigins (t t' : NodeTree) : Prop := t'.size = t.size ∧ ∀ i, t'.origin? i = t.origin? i

/-- **One more document**: its nodes are made of different elements. -/
theorem sourced_document {warned warned' : List String} {element : Handle} {report : IngestReport}
    {t' : NodeTree} (h : document p t warned element = .ok (report, t', warned')) :
    ∃ met, Sourced p t t' met := by
  rcases document_cases h with ⟨-, -, rfl, -⟩ | ⟨m, hm, -, -, rfl, -⟩
  · exact ⟨[], .refl p t'⟩
  · have hwalk : Sourced p t (walked p t warned element m).tree
        (walked p t warned element m).visited :=
      sourced_walk_root (makes_root t hm warned) (visited_fill _ _ _ _) _ _
    have hlater : ∀ t', SameOrigins t' _ := fun t' ↦ steady_origin.finished t' t.size
    exact ⟨_, hwalk.congr (hlater _).1 (hlater _).2⟩

end Ingest

end ViewCompiler
