import ViewCompiler.Proofs.Layout.Views

/-!
# What the structure of the output depends on

A node has many fields, and two small parts of it decide where it comes out. `Node.links` is the
part that is fixed when the node is made: its kind, its depth and its links to other nodes of the
source. The other part is its place in the output, read by `NodeTree.renderParent?`,
`NodeTree.isRendered`, `NodeTree.renderMembers` and `NodeTree.position`. A number without a node
reads like a node without a place, so that making a node changes none of them.

`NodeTree.Unmoved` relates two trees that agree in both parts. Changes of flags, attributes and
styles are of this kind (`NodeTree.unmoved_modify`), and every walk over the tree gives the same
result before and after.
-/

namespace ViewCompiler

/-- The links of a node to other nodes of the source. -/
structure Links where
  kind : NodeKind
  depth : Nat
  excluded : Bool
  documentParent : Option NodeId
  children : List NodeId
  layoutChildren : List NodeId
  deriving DecidableEq

/-- What of a node is fixed when it is made. -/
def Node.links (n : Node) : Links :=
  ⟨n.kind, n.depth, n.excluded, n.documentParent, n.children, n.layoutChildren⟩

/-- The place of a node in the output. -/
structure Place where
  renderParent : Option NodeId
  rendered : Bool
  renderChildren : List NodeId
  renderPosition : Int
  deriving DecidableEq

namespace Place

/-- The place of a node that has none. -/
def blank : Place := ⟨none, false, [], -1⟩

end Place

def Node.place (n : Node) : Place :=
  ⟨n.renderParent, n.rendered, n.renderChildren, n.renderPosition⟩

namespace NodeTree

variable {t t' : NodeTree}

def links? (t : NodeTree) (i : NodeId) : Option Links := (t.get? i).map Node.links

/-- The place of the node with a number, blank if there is none. -/
def place (t : NodeTree) (i : NodeId) : Place := ((t.get? i).map Node.place).getD .blank

def renderParent? (t : NodeTree) (i : NodeId) : Option NodeId := (t.place i).renderParent

def isRendered (t : NodeTree) (i : NodeId) : Bool := (t.place i).rendered

/-- The nodes in the output of a node, in order of attachment. -/
def renderMembers (t : NodeTree) (i : NodeId) : List NodeId := (t.place i).renderChildren

/-- The members of a node's layout run. -/
def layoutRun (t : NodeTree) (i : NodeId) : List NodeId :=
  ((t.links? i).map Links.layoutChildren).getD []

/-- The node in whose run a node is. -/
def documentParent? (t : NodeTree) (i : NodeId) : Option NodeId :=
  (t.links? i).bind Links.documentParent

/-- The nodes in the output of a node, in the order of output. -/
def order (t : NodeTree) (i : NodeId) : List NodeId :=
  stableSort (fun a b ↦ positionLE (t.position a) (t.position b)) (t.renderMembers i)

/-! ### Look-up -/

theorem get?_eq_none_iff {i : NodeId} : t.get? i = none ↔ t.size ≤ i := by
  simp [get?, size]

theorem lt_size_of_get? {i : NodeId} {n : Node} (h : t.get? i = some n) : i < t.size :=
  Nat.lt_of_not_le fun hle ↦ by
    rw [get?_eq_none_iff.2 hle] at h
    exact absurd h (by simp)

theorem exists_get? {i : NodeId} (h : i < t.size) : ∃ n, t.get? i = some n :=
  Option.ne_none_iff_exists'.1 fun hnone ↦ Nat.not_le.2 h (get?_eq_none_iff.1 hnone)

theorem links?_of_get? {i : NodeId} {n : Node} (h : t.get? i = some n) :
    t.links? i = some n.links := by
  rw [links?, h, Option.map_some]

theorem place_of_get? {i : NodeId} {n : Node} (h : t.get? i = some n) : t.place i = n.place := by
  rw [place, h, Option.map_some, Option.getD_some]

theorem lt_size_of_links? {i : NodeId} {l : Links} (h : t.links? i = some l) : i < t.size := by
  obtain ⟨n, hn, -⟩ := Option.map_eq_some_iff.1 h
  exact lt_size_of_get? hn

theorem links?_eq_none_iff {i : NodeId} : t.links? i = none ↔ t.size ≤ i := by
  rw [links?, Option.map_eq_none_iff, get?_eq_none_iff]

theorem place_eq_blank {i : NodeId} (h : t.size ≤ i) : t.place i = .blank := by
  rw [place, get?_eq_none_iff.2 h, Option.map_none, Option.getD_none]

theorem lt_size_of_renderParent? {i p : NodeId} (h : t.renderParent? i = some p) : i < t.size := by
  rcases Nat.lt_or_ge i t.size with hi | hi
  · exact hi
  · rw [renderParent?, place_eq_blank hi] at h
    exact absurd h (by simp [Place.blank])

theorem position_eq_place (t : NodeTree) (i : NodeId) :
    t.position i = (t.place i).renderPosition := by
  rw [position, place]
  cases t.get? i <;> rfl

/-- The order of output exists for every node. -/
theorem renderOrder_eq {i : NodeId} (h : i < t.size) : t.renderOrder i = .ok (t.order i) := by
  obtain ⟨n, hn⟩ := exists_get? h
  simp [renderOrder, order, renderMembers, hn, place_of_get? hn, Node.place]

theorem perm_order (t : NodeTree) (i : NodeId) : (t.order i).Perm (t.renderMembers i) :=
  perm_stableSort _ _

theorem mem_order {i c : NodeId} : c ∈ t.order i ↔ c ∈ t.renderMembers i :=
  (t.perm_order i).mem_iff

theorem lt_size_of_mem_renderMembers {p c : NodeId} (h : c ∈ t.renderMembers p) : p < t.size := by
  rcases Nat.lt_or_ge p t.size with hp | hp
  · exact hp
  · rw [renderMembers, place_eq_blank hp] at h
    exact absurd h List.not_mem_nil

/-! ### Trees that agree -/

/-- Two trees that differ neither in links nor in places. -/
structure Unmoved (t t' : NodeTree) : Prop where
  links : ∀ i, t'.links? i = t.links? i
  place : ∀ i, t'.place i = t.place i

namespace Unmoved

theorem refl (t : NodeTree) : Unmoved t t := ⟨fun _ ↦ rfl, fun _ ↦ rfl⟩

theorem trans {t'' : NodeTree} (h : Unmoved t t') (h' : Unmoved t' t'') : Unmoved t t'' :=
  ⟨fun i ↦ (h'.links i).trans (h.links i), fun i ↦ (h'.place i).trans (h.place i)⟩

/-- **Steps that move nothing move nothing together.** -/
theorem foldl {α : Type} {f : NodeTree → α → NodeTree} (hf : ∀ t a, Unmoved t (f t a))
    (l : List α) (t : NodeTree) : Unmoved t (l.foldl f t) := by
  induction l generalizing t with
  | nil => exact refl t
  | cons a r ih => exact (hf t a).trans (ih (f t a))

theorem size_eq (h : Unmoved t t') : t'.size = t.size := by
  have hiff : ∀ i, t'.size ≤ i ↔ t.size ≤ i := fun i ↦ by
    rw [← links?_eq_none_iff, ← links?_eq_none_iff, h.links]
  exact Nat.le_antisymm ((hiff _).2 (Nat.le_refl _)) ((hiff _).1 (Nat.le_refl _))

theorem renderParent? (h : Unmoved t t') (i : NodeId) : t'.renderParent? i = t.renderParent? i :=
  congrArg Place.renderParent (h.place i)

theorem isRendered (h : Unmoved t t') (i : NodeId) : t'.isRendered i = t.isRendered i :=
  congrArg Place.rendered (h.place i)

theorem renderMembers (h : Unmoved t t') (i : NodeId) : t'.renderMembers i = t.renderMembers i :=
  congrArg Place.renderChildren (h.place i)

theorem position (h : Unmoved t t') (i : NodeId) : t'.position i = t.position i := by
  rw [position_eq_place, position_eq_place, h.place]

theorem order (h : Unmoved t t') (i : NodeId) : t'.order i = t.order i := by
  rw [NodeTree.order, NodeTree.order, h.renderMembers, funext h.position]

end Unmoved

theorem links?_modify (t : NodeTree) {f : Node → Node} (hlinks : ∀ n, (f n).links = n.links)
    (id i : NodeId) : (t.modify id f).links? i = t.links? i := by
  rw [links?, links?, get?_modify]
  split
  · rw [Option.map_map]
    exact congrArg (Option.map · (t.get? i)) (funext hlinks)
  · rfl

/-- A change of a node changes its links only. -/
theorem links?_modify_of (t : NodeTree) (id : NodeId) {f : Node → Node} (g : Links → Links)
    (hlinks : ∀ n, (f n).links = g n.links) (i : NodeId) :
    (t.modify id f).links? i = if i = id then (t.links? i).map g else t.links? i :=
  view?_modify_of t id g hlinks i

theorem place_modify_eq (t : NodeTree) (id : NodeId) {f : Node → Node}
    (hplace : ∀ n, (f n).place = n.place) (i : NodeId) :
    (t.modify id f).place i = t.place i := by
  rw [place, place, get?_modify]
  split
  · rw [Option.map_map]
    exact congrArg (fun f ↦ ((t.get? i).map f).getD .blank) (funext hplace)
  · rfl

/-- A change of a node changes its place only. -/
theorem place_modify {f : Node → Node} {g : Place → Place} (hplace : ∀ n, (f n).place = g n.place)
    {id : NodeId} (hid : id < t.size) (i : NodeId) :
    (t.modify id f).place i = if i = id then g (t.place i) else t.place i := by
  obtain ⟨n, hn⟩ := exists_get? hid
  rw [place, place, get?_modify]
  by_cases h : i = id
  · rw [h, if_pos rfl, if_pos rfl, hn]
    exact hplace n
  · have h' : ¬id = i := fun heq ↦ h heq.symm
    rw [if_neg h, if_neg h']

/-- **A change beside links and place moves nothing.** -/
theorem unmoved_modify (t : NodeTree) (id : NodeId) {f : Node → Node}
    (hlinks : ∀ n, (f n).links = n.links) (hplace : ∀ n, (f n).place = n.place) :
    Unmoved t (t.modify id f) where
  links i := links?_modify t hlinks id i
  place i := place_modify_eq t id hplace i

/-! ### Making nodes -/

theorem get?_alloc (t : NodeTree) (kind : NodeKind) (tag : String) (i : NodeId) :
    (t.alloc kind tag).2.get? i =
      if i = t.size then some (.new t.size kind tag) else t.get? i := by
  rw [get?, alloc, Array.getElem?_push]
  rfl

@[simp] theorem size_alloc (t : NodeTree) (kind : NodeKind) (tag : String) :
    (t.alloc kind tag).2.size = t.size + 1 := by
  simp [alloc, size]

theorem links?_alloc (t : NodeTree) (kind : NodeKind) (tag : String) (i : NodeId) :
    (t.alloc kind tag).2.links? i =
      if i = t.size then some ⟨kind, 0, false, none, [], []⟩ else t.links? i := by
  rw [links?, links?, get?_alloc]
  split <;> rfl

theorem place_alloc (t : NodeTree) (kind : NodeKind) (tag : String) (i : NodeId) :
    (t.alloc kind tag).2.place i =
      if i = t.size then { Place.blank with rendered := decide (kind = .root ∨ kind = .host) }
      else t.place i := by
  rw [place, place, get?_alloc]
  split <;> rfl

theorem allocGroup_eq {parent : NodeId} {p : Node} (hp : t.get? parent = some p) (bounds : Rect) :
    t.allocGroup parent bounds = .ok (t.size, (t.alloc .group "group").2.modify t.size fun n ↦
      { n with
        parent := some parent
        documentParent := some parent
        depth := p.depth + 1
        bounds := bounds
        style := n.style.set "display" "block" }) := by
  rw [allocGroup, hp]
  rfl

/-- A group is made under a node that there is. -/
theorem exists_get?_of_allocGroup {parent id : NodeId} {bounds : Rect} {t' : NodeTree}
    (h : t.allocGroup parent bounds = .ok (id, t')) : ∃ p, t.get? parent = some p := by
  cases hp : t.get? parent with
  | none =>
    rw [allocGroup, hp] at h
    exact absurd h (by simp)
  | some p => exact ⟨p, rfl⟩

/-- **A group is made in the run of a node and has no place yet.** -/
theorem exists_allocGroup {parent : NodeId} (hparent : parent < t.size) (bounds : Rect) :
    ∃ t', t.allocGroup parent bounds = .ok (t.size, t') ∧ t'.size = t.size + 1 ∧
      (∀ i < t.size, t'.links? i = t.links? i) ∧
      (∃ depth, t'.links? t.size = some ⟨.group, depth, false, some parent, [], []⟩) ∧
      ∀ i, t'.place i = t.place i := by
  obtain ⟨p, hp⟩ := exists_get? hparent
  have hsize : t.size < (t.alloc .group "group").2.size := by
    rw [size_alloc]
    exact Nat.lt_succ_self _
  refine ⟨_, allocGroup_eq hp bounds, ?_, fun i hi ↦ ?_, ⟨p.depth + 1, ?_⟩, fun i ↦ ?_⟩
  · rw [size_modify, size_alloc]
  · have hne : t.size ≠ i := Nat.ne_of_gt hi
    rw [links?, get?_modify, if_neg hne, get?_alloc, if_neg (Ne.symm hne), links?]
  · rw [links?, get?_modify, if_pos rfl, get?_alloc, if_pos rfl]
    rfl
  · refine (place_modify (g := id) (fun n ↦ ?_) hsize i).trans ?_
    · rfl
    rw [id, ite_self, place_alloc]
    split
    · rename_i h
      rw [place_eq_blank (Nat.le_of_eq h.symm)]
      rfl
    · rfl

/-! ### Placing nodes -/

/-- What changes when nodes get their place in the output of another one. -/
structure Attached (owner : NodeId) (ids : List NodeId) (t t' : NodeTree) : Prop where
  links : ∀ i, t'.links? i = t.links? i
  renderParent? : ∀ i, t'.renderParent? i = if i ∈ ids then some owner else t.renderParent? i
  isRendered : ∀ i, t'.isRendered i = true ↔ i ∈ ids ∨ t.isRendered i = true
  renderMembers : ∀ i,
    t'.renderMembers i = if i = owner then t.renderMembers i ++ ids else t.renderMembers i
  position : ∀ i ∉ ids, t'.position i = t.position i

namespace Attached

variable {owner : NodeId} {ids : List NodeId}

theorem of_unmoved (h : Unmoved t t') (owner : NodeId) : Attached owner [] t t' where
  links := h.links
  renderParent? i := by simp [h.renderParent? i]
  isRendered i := by simp [h.isRendered i]
  renderMembers i := by simp [h.renderMembers i]
  position i _ := h.position i

theorem trans {t'' : NodeTree} {ids' : List NodeId} (h : Attached owner ids t t')
    (h' : Attached owner ids' t' t'') : Attached owner (ids ++ ids') t t'' where
  links i := (h'.links i).trans (h.links i)
  renderParent? i := by
    rw [h'.renderParent?, h.renderParent?]
    by_cases hi : i ∈ ids <;> by_cases hi' : i ∈ ids' <;> simp [hi, hi']
  isRendered i := by
    rw [h'.isRendered, h.isRendered, List.mem_append, or_left_comm, or_assoc]
  renderMembers i := by
    rw [h'.renderMembers, h.renderMembers]
    split <;> simp
  position i hi := by
    rw [List.mem_append, not_or] at hi
    rw [h'.position i hi.2, h.position i hi.1]

theorem size_eq (h : Attached owner ids t t') : t'.size = t.size := by
  have hiff : ∀ i, t'.size ≤ i ↔ t.size ≤ i := fun i ↦ by
    rw [← links?_eq_none_iff, ← links?_eq_none_iff, h.links]
  exact Nat.le_antisymm ((hiff _).2 (Nat.le_refl _)) ((hiff _).1 (Nat.le_refl _))

end Attached

/-- A node with a place in the output of another one. -/
def inside (parent : NodeId) (n : Node) : Node :=
  { n with renderParent := some parent, rendered := true }

/-- A node with one more node in its output. -/
def around (child : NodeId) (n : Node) : Node :=
  { n with renderChildren := n.renderChildren ++ [child] }

theorem setRenderParent_eq {child parent : NodeId} (hchild : child < t.size)
    (hparent : parent < t.size) (hnone : t.renderParent? child = none) :
    t.setRenderParent child parent =
      .ok ((t.modify child (inside parent)).modify parent (around child)) := by
  obtain ⟨c, hc⟩ := exists_get? hchild
  obtain ⟨p, hp⟩ := exists_get? hparent
  have hfree : c.renderParent = none := by
    rw [NodeTree.renderParent?, place_of_get? hc] at hnone
    exact hnone
  rw [setRenderParent, hp, hc]
  simp only [hfree]
  rfl

/-- A node is given a render parent only if it has none. -/
theorem open_of_setRenderParent {child parent : NodeId}
    (h : t.setRenderParent child parent = .ok t') :
    child < t.size ∧ parent < t.size ∧ t.renderParent? child = none := by
  rw [setRenderParent] at h
  cases hp : t.get? parent with
  | none =>
    rw [hp] at h
    exact absurd h (by simp)
  | some p =>
    cases hc : t.get? child with
    | none =>
      rw [hp, hc] at h
      exact absurd h (by simp)
    | some c =>
      refine ⟨lt_size_of_get? hc, lt_size_of_get? hp, ?_⟩
      rw [renderParent?, place_of_get? hc]
      cases hfree : c.renderParent with
      | none => exact hfree
      | some q =>
        simp only [hp, hc, hfree] at h
        exact absurd h (by simp)

/-- What giving a node its place comes to. -/
theorem eq_of_setRenderParent {child parent : NodeId}
    (h : t.setRenderParent child parent = .ok t') :
    t' = (t.modify child (inside parent)).modify parent (around child) := by
  obtain ⟨hchild, hparent, hnone⟩ := open_of_setRenderParent h
  exact Except.ok.inj (h.symm.trans (setRenderParent_eq hchild hparent hnone))

theorem place_inside_around {child parent : NodeId} (hchild : child < t.size)
    (hparent : parent < t.size) (i : NodeId) :
    ((t.modify child (inside parent)).modify parent (around child)).place i =
      ⟨if i = child then some parent else t.renderParent? i,
        if i = child then true else t.isRendered i,
        if i = parent then t.renderMembers i ++ [child] else t.renderMembers i,
        t.position i⟩ := by
  rw [place_modify (f := around child)
      (g := fun l ↦ { l with renderChildren := l.renderChildren ++ [child] }) (fun n ↦ rfl)
      (by rw [size_modify]; exact hparent),
    place_modify (f := inside parent)
      (g := fun l ↦ { l with renderParent := some parent, rendered := true }) (fun n ↦ rfl)
      hchild, position_eq_place]
  split <;> split <;> rfl

/-- **A node without a render parent gets one.** -/
theorem exists_setRenderParent {child parent : NodeId} (hchild : child < t.size)
    (hparent : parent < t.size) (hnone : t.renderParent? child = none) :
    ∃ t', t.setRenderParent child parent = .ok t' ∧ Attached parent [child] t t' ∧
      t'.position child = t.position child := by
  have hlinks : ∀ i, ((t.modify child (inside parent)).modify parent (around child)).links? i =
      t.links? i := fun i ↦
    (links?_modify _ (f := around child) (fun n ↦ rfl) _ i).trans
      (links?_modify _ (f := inside parent) (fun n ↦ rfl) _ i)
  have hplace := place_inside_around hchild hparent
  refine ⟨_, setRenderParent_eq hchild hparent hnone, ?_⟩
  generalize (t.modify child (inside parent)).modify parent (around child) = t' at hlinks hplace
  refine ⟨⟨hlinks, fun i ↦ ?_, fun i ↦ ?_, fun i ↦ ?_, fun i _ ↦ ?_⟩, ?_⟩
  · rw [NodeTree.renderParent?, hplace]
    simp only [List.mem_singleton]
  · rw [NodeTree.isRendered, hplace, List.mem_singleton]
    by_cases h : i = child <;> simp [h]
  · rw [NodeTree.renderMembers, hplace]
  · rw [position_eq_place, hplace]
  · rw [position_eq_place, hplace]

/-- A node without a render parent is moved to another node. -/
theorem exists_relocate {child target : NodeId} (hchild : child < t.size)
    (htarget : target < t.size) (hnone : t.renderParent? child = none) :
    ∃ t', t.relocate child target = .ok t' ∧ Attached target [child] t t' ∧
      t'.position child = t.position child := by
  obtain ⟨t₁, hset, hattached, hposition⟩ := exists_setRenderParent hchild htarget hnone
  have hflag : Unmoved t₁ (t₁.modify child fun n ↦
      { n with flags := n.flags.insert .relocated }) :=
    unmoved_modify t₁ child (fun _ ↦ by rfl) (fun _ ↦ by rfl)
  refine ⟨_, by rw [relocate, hset]; rfl, ?_, (hflag.position child).trans hposition⟩
  simpa using hattached.trans (.of_unmoved hflag target)

/-- A node is not moved to one that does not exist. -/
theorem relocate_eq_error (t : NodeTree) (child : NodeId) {target : NodeId}
    (htarget : t.size ≤ target) : t.relocate child target = .error (.unknownNode target) := by
  rw [relocate, setRenderParent, get?_eq_none_iff.2 htarget]
  rfl

end NodeTree

end ViewCompiler
