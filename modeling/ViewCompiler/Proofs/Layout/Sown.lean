import ViewCompiler.Layout.Ingest
import ViewCompiler.Proofs.Layout.LayoutForest

/-!
# Trees before classification

`Sown` is what holds of a tree while documents are made into nodes: the layout runs make a forest,
roots and hosts are outside of all runs, and no node has a place in the output, except that roots
and hosts need none.

Three changes keep it: a new root or host (`Sown.alloc`), a new node attached to its parent
(`Sown.graft`), and nodes cut off from the layout (`Sown.prune`). A node is cut off by emptying the
run that it is in, so what `Sown` has to know is in which run a child can be: the children of a node
that takes part in the layout are in its own run or in none (`Sown.children`).
-/

namespace ViewCompiler

/-- Whether a node is outside of all documents' layouts: their roots, and the hosts. -/
def NodeKind.isTop (k : NodeKind) : Bool := k == .root || k == .host

namespace NodeTree

def isTop (t : NodeTree) (i : NodeId) : Bool := (t.kind? i).any NodeKind.isTop

theorem isTop_iff {t : NodeTree} {i : NodeId} :
    t.isTop i = true ↔ ∃ l, t.links? i = some l ∧ l.kind.isTop = true := by
  rw [isTop, kind?]
  cases t.links? i <;> simp

/-- Two trees of which the second has all nodes of the first, of the same kind and in the same
runs. -/
def Kept (t t' : NodeTree) : Prop :=
  ∀ i l, t.links? i = some l →
    ∃ l', t'.links? i = some l' ∧ l'.kind = l.kind ∧ l'.documentParent = l.documentParent

theorem Kept.refl (t : NodeTree) : Kept t t := fun _ l hl ↦ ⟨l, hl, rfl, rfl⟩

theorem Kept.trans {t t' t'' : NodeTree} (h : Kept t t') (h' : Kept t' t'') : Kept t t'' :=
  fun i l hl ↦ by
    obtain ⟨l', hl', hkind, hparent⟩ := h i l hl
    obtain ⟨l'', hl'', hkind', hparent'⟩ := h' i l' hl'
    exact ⟨l'', hl'', hkind'.trans hkind, hparent'.trans hparent⟩

theorem Kept.lt_size {t t' : NodeTree} (h : Kept t t') {i : NodeId} (hi : i < t.size) :
    i < t'.size := by
  obtain ⟨n, hn⟩ := exists_get? hi
  obtain ⟨l', hl', -⟩ := h i _ (links?_of_get? hn)
  exact lt_size_of_links? hl'

theorem Unmoved.kept {t t' : NodeTree} (h : Unmoved t t') : Kept t t' :=
  fun i l hl ↦ ⟨l, (h.links i).trans hl, rfl, rfl⟩

end NodeTree

/-- What holds of a tree while documents are made into nodes. -/
structure Sown (t : NodeTree) : Prop where
  forest : LayoutForest t
  top : ∀ i l, t.links? i = some l → l.kind.isTop = true →
    l.excluded = false ∧ l.documentParent = none
  /-- Where the children of a node that takes part in the layout can be. -/
  children : ∀ i l, t.links? i = some l → l.kind = .root ∨ l.documentParent ≠ none →
    ∀ c ∈ l.children, ∃ m, t.links? c = some m ∧ m.kind.isTop = false ∧
      (m.documentParent = none ∨ m.documentParent = some i)
  ungrouped : ∀ i l, t.links? i = some l → l.kind ≠ .group
  place : ∀ i, t.place i = { Place.blank with rendered := t.isTop i }

namespace Sown

open NodeTree

variable {t t' : NodeTree}

theorem empty : Sown .empty where
  forest := ⟨fun _ ↦ .nil, fun hc ↦ absurd hc List.not_mem_nil⟩
  top _ _ hl := absurd hl (by simp [links?, NodeTree.get?, NodeTree.empty])
  children _ _ hl := absurd hl (by simp [links?, NodeTree.get?, NodeTree.empty])
  ungrouped _ _ hl := absurd hl (by simp [links?, NodeTree.get?, NodeTree.empty])
  place _ := rfl

theorem of_unmoved (h : Sown t) (hu : Unmoved t t') : Sown t' where
  forest := hu.extended.layoutForest h.forest
  top i l hl := h.top i l ((hu.links i).symm.trans hl)
  children i l hl hin c hc := by
    rw [hu.links c]
    exact h.children i l ((hu.links i).symm.trans hl) hin c hc
  ungrouped i l hl := h.ungrouped i l ((hu.links i).symm.trans hl)
  place i := by rw [hu.place, h.place, isTop, isTop, kind?, kind?, hu.links]

theorem not_mem_layoutRun (h : Sown t) {i : NodeId} (hi : t.size ≤ i) (p : NodeId) :
    i ∉ t.layoutRun p := fun hmem ↦ Nat.not_lt.2 hi (h.forest.lt_size hmem)

/-- **A new root or host.** -/
theorem alloc (h : Sown t) {kind : NodeKind} (hkind : kind.isTop = true) (tag : String) :
    Sown (t.alloc kind tag).2 := by
  refine ⟨(extended_alloc t kind tag).layoutForest h.forest, fun i l hl htop ↦ ?_,
    fun i l hl hin c hc ↦ ?_, fun i l hl ↦ ?_, fun i ↦ ?_⟩
  · rw [links?_alloc] at hl
    split at hl
    · rw [← Option.some.inj hl]
      exact ⟨rfl, rfl⟩
    · exact h.top i l hl htop
  · rw [links?_alloc] at hl
    split at hl
    · rw [← Option.some.inj hl] at hc
      exact absurd hc List.not_mem_nil
    · obtain ⟨m, hm, hmember⟩ := h.children i l hl hin c hc
      exact ⟨m, by rw [links?_alloc, if_neg (Nat.ne_of_lt (lt_size_of_links? hm))]; exact hm,
        hmember⟩
  · rw [links?_alloc] at hl
    split at hl
    · rw [← Option.some.inj hl]
      rintro rfl
      exact absurd hkind (by decide)
    · exact h.ungrouped i l hl
  · rw [place_alloc, isTop, kind?, links?_alloc]
    split
    · cases kind <;> rfl
    · rw [h.place i, isTop, kind?]

theorem kept_alloc (t : NodeTree) (kind : NodeKind) (tag : String) :
    Kept t (t.alloc kind tag).2 := fun i l hl ↦ by
  refine ⟨l, ?_, rfl, rfl⟩
  rw [links?_alloc, if_neg (Nat.ne_of_lt (lt_size_of_links? hl)), hl]

/-! ### Attaching a new node -/

/-- What attaching a node does to the links of a node with a number. -/
def attached (parent child depth : Nat) (layoutParent : Option NodeId) (i : NodeId) (l : Links) :
    Links where
  kind := l.kind
  depth := if i = child then depth else l.depth
  excluded := l.excluded
  documentParent := if i = child then layoutParent else l.documentParent
  children := if i = parent then l.children ++ [child] else l.children
  layoutChildren := if layoutParent = some i then l.layoutChildren ++ [child] else l.layoutChildren

/-- Attaching a node is three changes. -/
theorem attach_eq {parent child : NodeId} {layoutParent : Option NodeId} (hchild : child < t.size)
    (hparent : parent < t.size) (hlayout : ∀ p, layoutParent = some p → p < t.size) :
    ∃ index, (t.attach parent child layoutParent).2 =
      (match layoutParent with
        | none => t.modify parent (addChild child)
        | some p => (t.modify parent (addChild child)).modify p (addMember child)).modify child
          (under parent layoutParent index (t.depthOf (layoutParent.getD parent) + 1)) := by
  obtain ⟨c, hc⟩ := exists_get? hchild
  obtain ⟨p, hp⟩ := exists_get? hparent
  have hdepth : ∀ {i n}, t.get? i = some n → t.depthOf i = n.depth := fun hn ↦ by
    rw [depthOf, links?_of_get? hn]
    rfl
  refine ⟨p.children.length, ?_⟩
  cases layoutParent with
  | none =>
    rw [NodeTree.attach, hc, hp, Option.getD_none, hdepth hp]
  | some l =>
    obtain ⟨above, habove⟩ := exists_get? (hlayout l rfl)
    rw [NodeTree.attach, hc, hp, Option.getD_some, hdepth habove]
    dsimp only
    rw [get?_modify, habove]
    by_cases h : parent = l
    · rw [if_pos h]
      rfl
    · rw [if_neg h]

theorem links?_attach {parent child : NodeId} {layoutParent : Option NodeId}
    (hchild : child < t.size) (hparent : parent < t.size)
    (hlayout : ∀ p, layoutParent = some p → p < t.size) (i : NodeId) :
    (t.attach parent child layoutParent).2.links? i = (t.links? i).map
      (attached parent child (t.depthOf (layoutParent.getD parent) + 1) layoutParent i) := by
  obtain ⟨index, hattach⟩ := attach_eq hchild hparent hlayout
  have hfirst := links?_modify_of t parent (f := addChild child)
    (fun l ↦ { l with children := l.children ++ [child] }) fun _ ↦ rfl
  rw [hattach, links?_modify_of _ child (f := under _ _ _ _) (fun l ↦ { l with
    documentParent := layoutParent
    depth := t.depthOf (layoutParent.getD parent) + 1 }) fun _ ↦ rfl]
  cases layoutParent with
  | none =>
    rw [hfirst]
    cases t.links? i with
    | none => simp
    | some l =>
      simp only [attached, Option.map_some]
      split <;> split <;> simp
  | some p =>
    dsimp only
    rw [links?_modify_of _ p (f := addMember child)
      (fun l ↦ { l with layoutChildren := l.layoutChildren ++ [child] }) fun _ ↦ rfl, hfirst]
    cases t.links? i with
    | none => simp
    | some l =>
      simp only [attached, Option.map_some, Option.some.injEq, eq_comm (a := p)]
      split <;> split <;> split <;> simp

theorem size_attach (t : NodeTree) (parent child : NodeId) (layoutParent : Option NodeId) :
    (t.attach parent child layoutParent).2.size = t.size := by
  rw [attach]
  split
  · rfl
  · rfl
  · cases layoutParent with
    | none => simp only [size_modify]
    | some l =>
      dsimp only
      split <;> simp only [size_modify]

/-- Attaching a node moves nothing in the output, whether it fails or not. -/
theorem place_attach (t : NodeTree) (parent child : NodeId) (layoutParent : Option NodeId)
    (i : NodeId) : (t.attach parent child layoutParent).2.place i = t.place i := by
  have hfirst : (t.modify parent (addChild child)).place i = t.place i :=
    place_modify_eq t parent (f := addChild child) (fun _ ↦ rfl) i
  have hlast := fun (t : NodeTree) (p index depth) ↦
    place_modify_eq t child (f := under parent p index depth) (fun _ ↦ rfl) i
  rw [attach]
  split
  · rfl
  · rfl
  · cases layoutParent with
    | none => exact (hlast _ _ _ _).trans hfirst
    | some l =>
      dsimp only
      split
      · exact hfirst
      · exact ((hlast _ _ _ _).trans
          (place_modify_eq _ l (f := addMember child) (fun _ ↦ rfl) i)).trans hfirst

/-- Where a new node goes: to a parent, and to a run, which is the parent's own if the parent takes
part in the layout. -/
structure Attachable (t : NodeTree) (parent layoutParent : NodeId) : Prop where
  parent_lt : parent < t.size
  layoutParent_lt : layoutParent < t.size
  own : ∀ l, t.links? parent = some l → l.kind = .root ∨ l.documentParent ≠ none →
    layoutParent = parent

theorem Attachable.kept {parent layoutParent : NodeId} (h : Attachable t parent layoutParent)
    (hkept : Kept t t') : Attachable t' parent layoutParent where
  parent_lt := hkept.lt_size h.parent_lt
  layoutParent_lt := hkept.lt_size h.layoutParent_lt
  own l' hl' hin := by
    obtain ⟨n, hn⟩ := exists_get? h.parent_lt
    obtain ⟨l'', hl'', hkind, hparent⟩ := hkept parent _ (links?_of_get? hn)
    obtain rfl := Option.some.inj (hl'.symm.trans hl'')
    exact h.own _ (links?_of_get? hn) (by rwa [hkind, hparent] at hin)

/-- A new node, attached to its parent. -/
def grafted (t : NodeTree) (kind : NodeKind) (tag : String) (parent : NodeId)
    (layoutParent : Option NodeId) : NodeTree :=
  ((t.alloc kind tag).2.attach parent t.size layoutParent).2

theorem place_grafted {kind : NodeKind} {tag : String} {parent : NodeId}
    {layoutParent : Option NodeId} (hkind : kind.isTop = false) (i : NodeId) :
    (grafted t kind tag parent layoutParent).place i = t.place i := by
  rw [grafted, place_attach, place_alloc]
  split
  · rename_i hi
    rw [place_eq_blank (Nat.le_of_eq hi.symm)]
    cases kind <;> first | rfl | exact absurd hkind (by decide)
  · rfl

section Graft

variable {kind : NodeKind} {tag : String} {parent : NodeId} {layoutParent : Option NodeId}
  (hparent : parent < t.size) (hlayout : ∀ p, layoutParent = some p → p < t.size)

include hparent hlayout

/-- The node above a new one is as deep as it was. -/
theorem depthOf_alloc_above : (t.alloc kind tag).2.depthOf (layoutParent.getD parent) =
    t.depthOf (layoutParent.getD parent) := by
  have habove : layoutParent.getD parent < t.size := by
    cases layoutParent with
    | none => exact hparent
    | some p => exact hlayout p rfl
  rw [depthOf, depthOf, links?_alloc, if_neg (Nat.ne_of_lt habove)]

variable (kind tag) in
theorem links?_grafted (i : NodeId) : (grafted t kind tag parent layoutParent).links? i =
    if i = t.size then
      some ⟨kind, t.depthOf (layoutParent.getD parent) + 1, false, layoutParent, [], []⟩
    else (t.links? i).map
      (attached parent t.size (t.depthOf (layoutParent.getD parent) + 1) layoutParent i) := by
  have hsize : t.size < (t.alloc kind tag).2.size := by
    rw [size_alloc]
    exact Nat.lt_succ_self _
  have hlt : ∀ {i}, i < t.size → i < (t.alloc kind tag).2.size := fun hi ↦ Nat.lt_trans hi hsize
  rw [grafted, links?_attach hsize (hlt hparent) (fun p hp ↦ hlt (hlayout p hp)), links?_alloc,
    depthOf_alloc_above hparent hlayout]
  split
  · rename_i hi
    have hne : i ≠ parent := fun heq ↦ Nat.ne_of_gt (heq ▸ hparent) hi.symm
    have hne' : layoutParent ≠ some i := fun heq ↦ Nat.ne_of_lt (hlayout i heq) hi
    simp [attached, hi, hi ▸ hne, hi ▸ hne']
  · rfl

variable (kind tag) in
theorem links?_grafted_of_lt {i : NodeId} {l : Links} (hl : t.links? i = some l) :
    (grafted t kind tag parent layoutParent).links? i = some (attached parent t.size
      (t.depthOf (layoutParent.getD parent) + 1) layoutParent i l) := by
  rw [links?_grafted kind tag hparent hlayout, if_neg (Nat.ne_of_lt (lt_size_of_links? hl)), hl,
    Option.map_some]

theorem kept_grafted : Kept t (grafted t kind tag parent layoutParent) := fun i l hl ↦ by
  refine ⟨_, links?_grafted_of_lt kind tag hparent hlayout hl, rfl, ?_⟩
  simp [attached, Nat.ne_of_lt (lt_size_of_links? hl)]

theorem layoutRun_grafted (p : NodeId) :
    (grafted t kind tag parent layoutParent).layoutRun p =
      if layoutParent = some p then t.layoutRun p ++ [t.size] else t.layoutRun p := by
  rw [layoutRun, layoutRun, links?_grafted kind tag hparent hlayout]
  by_cases hp : p = t.size
  · have hnone : t.links? p = none := links?_eq_none_iff.2 (Nat.le_of_eq hp.symm)
    have hne : layoutParent ≠ some p := fun heq ↦ Nat.ne_of_lt (hlayout p heq) hp
    rw [if_pos hp, if_neg hne, hnone]
    rfl
  · rw [if_neg hp]
    cases hl : t.links? p with
    | none =>
      have hne : layoutParent ≠ some p := fun heq ↦
        Nat.not_lt.2 (links?_eq_none_iff.1 hl) (hlayout p heq)
      rw [if_neg hne]
      rfl
    | some l =>
      simp only [Option.map_some, attached, Option.getD_some]

theorem mem_layoutRun_grafted {p c : NodeId} :
    c ∈ (grafted t kind tag parent layoutParent).layoutRun p ↔
      c ∈ t.layoutRun p ∨ c = t.size ∧ layoutParent = some p := by
  rw [layoutRun_grafted hparent hlayout]
  split <;> simp [*]

theorem depthOf_grafted {p : NodeId} (hp : p < t.size) :
    (grafted t kind tag parent layoutParent).depthOf p = t.depthOf p := by
  obtain ⟨n, hn⟩ := exists_get? hp
  rw [depthOf, depthOf, links?_grafted_of_lt kind tag hparent hlayout (links?_of_get? hn),
    links?_of_get? hn]
  simp [attached, Nat.ne_of_lt hp]

/-- There are the new node and those before. -/
theorem eq_or_attached {i : NodeId} {l : Links}
    (hl : (grafted t kind tag parent layoutParent).links? i = some l) :
    (i = t.size ∧
        l = ⟨kind, t.depthOf (layoutParent.getD parent) + 1, false, layoutParent, [], []⟩) ∨
      i ≠ t.size ∧ ∃ l₀, t.links? i = some l₀ ∧
        l = attached parent t.size (t.depthOf (layoutParent.getD parent) + 1) layoutParent i
          l₀ := by
  rw [links?_grafted kind tag hparent hlayout] at hl
  split at hl
  · exact .inl ⟨‹_›, (Option.some.inj hl).symm⟩
  · obtain ⟨l₀, hl₀, rfl⟩ := Option.map_eq_some_iff.1 hl
    exact .inr ⟨‹_›, l₀, hl₀, rfl⟩

/-- A new node is at the end of one run or of none. -/
theorem layoutForest_grafted (h : LayoutForest t) (hkind : kind = .element ∨ kind = .text) :
    LayoutForest (grafted t kind tag parent layoutParent) where
  nodup p := by
    have hnew : t.size ∉ t.layoutRun p := fun hmem ↦ Nat.lt_irrefl _ (h.lt_size hmem)
    rw [layoutRun_grafted hparent hlayout]
    split
    · exact (h.nodup p).append (List.nodup_singleton _) fun i hi hi' ↦
        hnew (List.mem_singleton.1 hi' ▸ hi)
    · exact h.nodup p
  member {p c} hc := by
    rcases (mem_layoutRun_grafted hparent hlayout).1 hc with hc | ⟨rfl, hp⟩
    · obtain ⟨l, hl, hyounger, hdocument, hdepth, hexcluded, hk⟩ := h.member hc
      have hne : c ≠ t.size := Nat.ne_of_lt (lt_size_of_links? hl)
      refine ⟨_, links?_grafted_of_lt kind tag hparent hlayout hl, hyounger,
        by simp [attached, hne, hdocument], ?_, hexcluded, hk⟩
      rw [depthOf_grafted hparent hlayout (lt_size_of_mem_layoutRun hc)]
      simp [attached, hne, hdepth]
    · refine ⟨_, (links?_grafted kind tag hparent hlayout _).trans (if_pos rfl), hlayout p hp, hp,
        ?_, rfl, hkind⟩
      rw [depthOf_grafted hparent hlayout (hlayout p hp)]
      simp [hp]

end Graft

/-- **A new node attached to its parent.** -/
theorem graft (h : Sown t) {kind : NodeKind} (tag : String) {parent layoutParent : NodeId}
    (hat : Attachable t parent layoutParent) (hkind : kind = .element ∨ kind = .text)
    (joins : Bool) :
    Sown (grafted t kind tag parent (if joins then some layoutParent else none)) := by
  have htop : kind.isTop = false := by rcases hkind with rfl | rfl <;> rfl
  have hjoins : ∀ p, (if joins then some layoutParent else none) = some p → p = layoutParent := by
    intro p hp
    split at hp
    · exact (Option.some.inj hp).symm
    · exact absurd hp (by simp)
  generalize (if joins then some layoutParent else none) = run at hjoins
  have hlt : ∀ p, run = some p → p < t.size := fun p hp ↦ hjoins p hp ▸ hat.layoutParent_lt
  have hlinks := links?_grafted kind tag hat.parent_lt hlt
  refine ⟨layoutForest_grafted hat.parent_lt hlt h.forest hkind, fun i l hl hl' ↦ ?_,
    fun i l hl hin c hc ↦ ?_, fun i l hl ↦ ?_, fun i ↦ ?_⟩
  · obtain ⟨-, rfl⟩ | ⟨hne, l₀, hl₀, rfl⟩ := eq_or_attached hat.parent_lt hlt hl
    · exact absurd hl' (by simp [htop])
    · obtain ⟨hexcluded, hparent⟩ := h.top i l₀ hl₀ hl'
      exact ⟨hexcluded, by simp [attached, hne, hparent]⟩
  · obtain ⟨-, rfl⟩ | ⟨hne, l₀, hl₀, rfl⟩ := eq_or_attached hat.parent_lt hlt hl
    · exact absurd hc List.not_mem_nil
    have hin₀ : l₀.kind = .root ∨ l₀.documentParent ≠ none := by simpa [attached, hne] using hin
    have hmem : c ∈ l₀.children ∨ i = parent ∧ c = t.size := by
      simp only [attached] at hc
      split at hc
      · rename_i hi
        exact (List.mem_append.1 hc).imp_right fun hc ↦ ⟨hi, List.mem_singleton.1 hc⟩
      · exact .inl hc
    rcases hmem with hc | ⟨rfl, rfl⟩
    · obtain ⟨m, hm, hmkind, hmparent⟩ := h.children i l₀ hl₀ hin₀ c hc
      have hne' : c ≠ t.size := Nat.ne_of_lt (lt_size_of_links? hm)
      exact ⟨_, links?_grafted_of_lt kind tag hat.parent_lt hlt hm, hmkind,
        by simpa [attached, hne'] using hmparent⟩
    · refine ⟨_, (hlinks _).trans (if_pos rfl), htop, ?_⟩
      -- the parent takes part, so if the new node is in a run then it is the parent's own
      cases run with
      | none => exact .inl rfl
      | some p => exact .inr (by rw [hjoins p rfl, hat.own l₀ hl₀ hin₀])
  · obtain ⟨-, rfl⟩ | ⟨-, l₀, hl₀, rfl⟩ := eq_or_attached hat.parent_lt hlt hl
    · rintro rfl
      exact absurd hkind (by decide)
    · exact h.ungrouped i l₀ hl₀
  · rw [place_grafted htop, h.place, isTop, isTop, kind?, kind?, hlinks]
    split
    · rename_i hi
      rw [links?_eq_none_iff.2 (Nat.le_of_eq hi.symm)]
      simp [htop]
    · cases t.links? i <;> rfl

/-! ### Cutting nodes off -/

/-- A tree in which the runs of some nodes are emptied and some nodes are excluded. -/
structure Pruned (cut : Option NodeId) (ids : List NodeId) (t t' : NodeTree) : Prop where
  links : ∀ i, t'.links? i = (t.links? i).map fun l ↦ { l with
    layoutChildren := if cut = some i then [] else l.layoutChildren
    excluded := l.excluded || ids.contains i }
  place : ∀ i, t'.place i = t.place i

namespace Pruned

variable {cut : Option NodeId} {ids : List NodeId}

theorem links_of_some (hp : Pruned cut ids t t') {i : NodeId} {l : Links}
    (hl : t.links? i = some l) : t'.links? i = some { l with
      layoutChildren := if cut = some i then [] else l.layoutChildren
      excluded := l.excluded || ids.contains i } := by
  rw [hp.links, hl, Option.map_some]

theorem refl (t : NodeTree) : Pruned none [] t t where
  links i := by
    cases t.links? i <;> simp
  place _ := rfl

theorem trans {t'' : NodeTree} {cut' : Option NodeId} {ids' : List NodeId}
    (hp : Pruned cut ids t t') (hp' : Pruned cut' ids' t' t'') (hcut : cut = none ∨ cut' = none) :
    Pruned (cut.or cut') (ids ++ ids') t t'' where
  links i := by
    rw [hp'.links, hp.links, Option.map_map]
    refine congrArg (Option.map · (t.links? i)) (funext fun l ↦ ?_)
    rcases hcut with rfl | rfl
    · simp only [Function.comp_apply, Option.none_or, reduceCtorEq, if_false, Bool.or_assoc,
        List.contains_append]
      rfl
    · simp [Bool.or_assoc]
  place i := (hp'.place i).trans (hp.place i)

theorem kept (hp : Pruned cut ids t t') : Kept t t' := fun _ _ hl ↦
  ⟨_, hp.links_of_some hl, rfl, rfl⟩

theorem layoutRun (hp : Pruned cut ids t t') (p : NodeId) :
    t'.layoutRun p = if cut = some p then [] else t.layoutRun p := by
  rw [NodeTree.layoutRun, NodeTree.layoutRun, hp.links]
  cases t.links? p <;> simp

theorem depthOf (hp : Pruned cut ids t t') (p : NodeId) : t'.depthOf p = t.depthOf p := by
  rw [NodeTree.depthOf, NodeTree.depthOf, hp.links]
  cases t.links? p <;> rfl

end Pruned

/-- **Nodes cut off from the layout.** They are no roots or hosts, and in no run but the emptied
one. -/
theorem prune (h : Sown t) {cut : Option NodeId} {ids : List NodeId} (hp : Pruned cut ids t t')
    (hrun : ∀ i ∈ ids, t.isTop i = false ∧ ∀ p, i ∈ t.layoutRun p → cut = some p) : Sown t' where
  forest := by
    refine ⟨fun p ↦ ?_, fun {p c} hc ↦ ?_⟩
    · rw [hp.layoutRun]
      split
      · exact .nil
      · exact h.forest.nodup p
    · rw [hp.layoutRun] at hc
      split at hc
      · exact absurd hc List.not_mem_nil
      · rename_i hcut
        obtain ⟨l, hl, hyounger, hparent, hdepth, hexcluded, hkind⟩ := h.forest.member hc
        refine ⟨_, hp.links_of_some hl, hyounger, hparent, ?_, ?_, hkind⟩
        · rw [hp.depthOf]
          exact hdepth
        · have hnot : c ∉ ids := fun hmem ↦ hcut ((hrun c hmem).2 p hc)
          simp [hexcluded, hnot]
  top i l hl htop := by
    rw [hp.links] at hl
    obtain ⟨l₀, hl₀, rfl⟩ := Option.map_eq_some_iff.1 hl
    obtain ⟨hexcluded, hparent⟩ := h.top i l₀ hl₀ htop
    have hnot : i ∉ ids := fun hmem ↦ by
      have hfalse := (hrun i hmem).1
      rw [isTop, kind?, hl₀] at hfalse
      exact absurd htop (by simpa using hfalse)
    exact ⟨by simp [hexcluded, hnot], hparent⟩
  children i l hl hin c hc := by
    rw [hp.links] at hl
    obtain ⟨l₀, hl₀, rfl⟩ := Option.map_eq_some_iff.1 hl
    obtain ⟨m, hm, hkind, hparent⟩ := h.children i l₀ hl₀ hin c hc
    exact ⟨_, hp.links_of_some hm, hkind, hparent⟩
  ungrouped i l hl := by
    rw [hp.links] at hl
    obtain ⟨l₀, hl₀, rfl⟩ := Option.map_eq_some_iff.1 hl
    exact h.ungrouped i l₀ hl₀
  place i := by
    rw [hp.place, h.place, isTop, isTop, kind?, kind?, hp.links]
    cases t.links? i <;> rfl

end Sown

end ViewCompiler
