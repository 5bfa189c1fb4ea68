import ViewCompiler.Proofs.Convert.Unmoved
import ViewCompiler.Proofs.Layout.LayoutForest
import ViewCompiler.Proofs.Layout.Views

/-!
# Depths in the output

A node renders in another one, which renders in a further one, and so on up to an outermost node.
These are its render parents (`NodeTree.RenderChain`), and how many there are is the depth that it
is given (`NodeTree.renderDepth?_computeRenderDepths`). A node on a render loop or inside of one has
no such chain and is never met.

The depths are found level by level from the outermost nodes on. A node that has been given its
depth is not given another one, and what is inside a node is on the next level. So what has been
seen are the nodes with shorter chains than the level at hand, and on the level are those with as
many render parents as its depth says (`NodeTree.AtDepth`). This holds for the next level
(`NodeTree.AtDepth.next`) since no node has two chains. No chain leads to a node twice, so there are
steps enough to meet every node that has one.

In particular every node below an outermost one is one deeper than what it renders in
(`NodeTree.graded_computeRenderDepths`).
-/

namespace ViewCompiler

namespace NodeTree

variable {t t' : NodeTree}

/-- The depth of the node with a number in the output. -/
def renderDepth? (t : NodeTree) (i : NodeId) : Option Nat := (t.get? i).map Node.renderDepth

/-- Every one of some nodes is one deeper in the output than what it renders in. -/
def Graded (t : NodeTree) (ids : List NodeId) : Prop :=
  ∀ p ∈ ids, ∀ c ∈ t.order p, t.renderDepth? c = (t.renderDepth? p).map (· + 1)

theorem order_bare (t : NodeTree) (i : NodeId) : t.bare.order i = t.order i := by
  have hposition : t.bare.position = t.position := funext t.position_bare
  rw [order, order, renderMembers, renderMembers, place, place, get?_bare, hposition]
  cases t.get? i <;> rfl

/-- Depths do not change with attributes and styles. -/
theorem Graded.of_bare {ids : List NodeId} (h : t.Graded ids) (hbare : t.bare = t'.bare) :
    t'.Graded ids := fun p hp c hc ↦ by
  have hdepth : ∀ i, t'.renderDepth? i = t.renderDepth? i :=
    map_get?_of_bare hbare (g := Node.renderDepth) fun _ ↦ rfl
  rw [hdepth, hdepth]
  refine h p hp c ?_
  rwa [← order_bare, hbare, order_bare]

/-! ### Render parents -/

/-- What a node renders in exists. -/
theorem lt_size_of_outer (hlinked : ∀ p c, c ∈ t.renderMembers p ↔ t.renderParent? c = some p)
    {i p : NodeId} (h : t.renderParent? i = some p) : p < t.size :=
  lt_size_of_mem_renderMembers ((hlinked p i).2 h)

/-- All that a node renders in, from the inside out, up to an outermost node. -/
inductive RenderChain (t : NodeTree) : NodeId → List NodeId → Prop where
  | outermost {i : NodeId} (h : t.renderParent? i = none) : RenderChain t i []
  | inside {i p : NodeId} {chain : List NodeId} (h : t.renderParent? i = some p)
      (outer : RenderChain t p chain) : RenderChain t i (p :: chain)

namespace RenderChain

variable {i p : NodeId} {chain chain' : List NodeId}

/-- **A node has one chain at most.** -/
theorem unique (h : t.RenderChain i chain) (h' : t.RenderChain i chain') : chain = chain' := by
  induction h generalizing chain' with
  | outermost hnone =>
    cases h' with
    | outermost => rfl
    | inside hp => exact absurd (hnone.symm.trans hp) (by simp)
  | inside hp _ ih =>
    cases h' with
    | outermost hnone => exact absurd (hp.symm.trans hnone) (by simp)
    | inside hp' outer =>
      obtain rfl := Option.some.inj (hp.symm.trans hp')
      rw [ih outer]

/-- What a node renders in has a shorter chain. -/
theorem exists_of_mem (h : t.RenderChain i chain) (hp : p ∈ chain) :
    ∃ outer, t.RenderChain p outer ∧ outer.length < chain.length := by
  induction h with
  | outermost => exact absurd hp List.not_mem_nil
  | inside _ houter ih =>
    rcases List.mem_cons.1 hp with rfl | hp
    · exact ⟨_, houter, Nat.lt_succ_self _⟩
    · obtain ⟨outer, hchain, hlt⟩ := ih hp
      exact ⟨outer, hchain, Nat.lt_succ_of_lt hlt⟩

/-- No node comes twice in a chain. -/
theorem nodup (h : t.RenderChain i chain) : (i :: chain).Nodup := by
  induction h with
  | outermost => exact List.nodup_singleton _
  | inside hp houter ih =>
    refine List.nodup_cons.2 ⟨fun hmem ↦ ?_, ih⟩
    obtain ⟨outer, hchain, hlt⟩ := (inside hp houter).exists_of_mem hmem
    rw [hchain.unique (inside hp houter)] at hlt
    exact Nat.lt_irrefl _ hlt

theorem congr (hparent : ∀ i, t'.renderParent? i = t.renderParent? i) (h : t.RenderChain i chain) :
    t'.RenderChain i chain := by
  induction h with
  | outermost hnone => exact .outermost ((hparent _).trans hnone)
  | inside hp _ ih => exact .inside ((hparent _).trans hp) ih

theorem unmoved_iff (hu : Unmoved t t') : t'.RenderChain i chain ↔ t.RenderChain i chain :=
  ⟨congr fun i ↦ (hu.renderParent? i).symm, congr hu.renderParent?⟩

/-- A node renders in fewer nodes than there are. -/
theorem length_lt (hlinked : ∀ p c, c ∈ t.renderMembers p ↔ t.renderParent? c = some p)
    (h : t.RenderChain i chain) (hi : i < t.size) : chain.length < t.size := by
  have hall : ∀ j ∈ i :: chain, j < t.size := by
    induction h with
    | outermost => simpa using hi
    | inside hp _ ih => exact List.forall_mem_cons.2 ⟨hi, ih (lt_size_of_outer hlinked hp)⟩
  exact length_le_of_nodup h.nodup hall

end RenderChain

/-! ### Levels -/

/-- Where the walk over the output stands: the tree, what has been seen, and the next level. -/
abbrev DepthWalk := NodeTree × List NodeId × List NodeId

/-- **What comes of the nodes of one level**: those that are new get the depth, and what is inside
them is on the next level. -/
structure LevelVisited (depth : Nat) (level : List NodeId) (s s' : DepthWalk) : Prop where
  unmoved : Unmoved s.1 s'.1
  seen : ∀ i, i ∈ s'.2.1 ↔ i ∈ s.2.1 ∨ i ∈ level
  next : ∀ c, c ∈ s'.2.2 ↔ c ∈ s.2.2 ∨ ∃ p ∈ level, p ∉ s.2.1 ∧ c ∈ s.1.renderMembers p
  old : ∀ i ∈ s.2.1, s'.1.renderDepth? i = s.1.renderDepth? i
  new : ∀ i ∈ level, i ∉ s.2.1 → i < s.1.size → s'.1.renderDepth? i = some depth

namespace LevelVisited

variable {depth : Nat} {level rest : List NodeId} {s s' s'' : DepthWalk}

theorem nil (depth : Nat) (s : DepthWalk) : LevelVisited depth [] s s where
  unmoved := .refl s.1
  seen i := by simp
  next c := by simp
  old _ _ := rfl
  new i hi := absurd hi List.not_mem_nil

theorem append (h : LevelVisited depth level s s') (h' : LevelVisited depth rest s' s'') :
    LevelVisited depth (level ++ rest) s s'' where
  unmoved := h.unmoved.trans h'.unmoved
  seen i := by rw [h'.seen, h.seen, List.mem_append, or_assoc]
  next c := by
    rw [h'.next, h.next]
    constructor
    · rintro ((hc | ⟨p, hp, hnew, hc⟩) | ⟨p, hp, hnew, hc⟩)
      · exact .inl hc
      · exact .inr ⟨p, List.mem_append_left _ hp, hnew, hc⟩
      · rw [h.unmoved.renderMembers] at hc
        exact .inr ⟨p, List.mem_append_right _ hp, fun hold ↦ hnew ((h.seen p).2 (.inl hold)), hc⟩
    · rintro (hc | ⟨p, hp, hnew, hc⟩)
      · exact .inl (.inl hc)
      · by_cases hlevel : p ∈ level
        · exact .inl (.inr ⟨p, hlevel, hnew, hc⟩)
        · refine .inr ⟨p, (List.mem_append.1 hp).resolve_left hlevel, fun hseen ↦ ?_, ?_⟩
          · exact ((h.seen p).1 hseen).elim hnew hlevel
          · rw [h.unmoved.renderMembers]
            exact hc
  old i hi := (h'.old i ((h.seen i).2 (.inl hi))).trans (h.old i hi)
  new i hi hnew hlt := by
    by_cases hlevel : i ∈ level
    · exact (h'.old i ((h.seen i).2 (.inr hlevel))).trans (h.new i hlevel hnew hlt)
    · refine h'.new i ((List.mem_append.1 hi).resolve_left hlevel) (fun hseen ↦ ?_) ?_
      · exact ((h.seen i).1 hseen).elim hnew hlevel
      · rw [h.unmoved.size_eq]
        exact hlt

end LevelVisited

theorem levelVisited_visitLevel (depth : Nat) (s : DepthWalk) (id : NodeId) :
    LevelVisited depth [id] s (visitLevel depth s id) := by
  obtain ⟨t, seen, next⟩ := s
  rw [visitLevel]
  cases hseen : seen.contains id with
  | true =>
    have hmem := List.contains_iff_mem.1 hseen
    refine ⟨.refl t, fun i ↦ ?_, fun c ↦ ?_, fun _ _ ↦ rfl, fun i hi hnew ↦ ?_⟩
    · simpa using fun heq ↦ heq ▸ hmem
    · simp [hmem]
    · exact absurd (List.mem_singleton.1 hi ▸ hmem) hnew
  | false =>
    have hnew : id ∉ seen := fun hmem ↦ by
      rw [List.contains_iff_mem.2 hmem] at hseen
      exact absurd hseen (by simp)
    have hcons : ∀ i, i ∈ id :: seen ↔ i ∈ seen ∨ i ∈ [id] := fun i ↦ by simp [or_comm]
    simp only [Bool.false_eq_true, if_false]
    cases hn : t.get? id with
    | none =>
      have hle := get?_eq_none_iff.1 hn
      refine ⟨.refl t, hcons, fun c ↦ ?_, fun _ _ ↦ rfl, fun i hi _ hlt ↦ ?_⟩
      · simp [renderMembers, place_eq_blank hle, Place.blank]
      · exact absurd (List.mem_singleton.1 hi ▸ hlt) (Nat.not_lt.2 hle)
    | some n =>
      have hmembers : t.renderMembers id = n.renderChildren := by
        rw [renderMembers, place_of_get? hn]
        rfl
      refine ⟨unmoved_modify t id (fun _ ↦ by rfl) fun _ ↦ by rfl, hcons, fun c ↦ ?_,
        fun i hi ↦ ?_, fun i hi _ _ ↦ ?_⟩
      · simp [hmembers, hnew]
      · have hne : id ≠ i := fun heq ↦ hnew (heq ▸ hi)
        rw [renderDepth?, get?_modify, if_neg hne, renderDepth?]
      · rw [List.mem_singleton.1 hi, renderDepth?, get?_modify, if_pos rfl, hn]
        rfl

/-- **One level.** -/
theorem levelVisited_foldl (depth : Nat) (level : List NodeId) (s : DepthWalk) :
    LevelVisited depth level s (level.foldl (visitLevel depth) s) := by
  induction level generalizing s with
  | nil => exact .nil depth s
  | cons id r ih => exact (levelVisited_visitLevel depth s id).append (ih (visitLevel depth s id))

/-- What has been seen keeps its depth. -/
theorem renderDepth?_visitLevels (t : NodeTree) (seen : List NodeId) (depth fuel : Nat)
    (level : List NodeId) {i : NodeId} (hi : i ∈ seen) :
    (t.visitLevels seen depth fuel level).renderDepth? i = t.renderDepth? i := by
  induction fuel generalizing t seen depth level with
  | zero => cases level <;> rfl
  | succ fuel ih =>
    cases level with
    | nil => rfl
    | cons id r =>
      have hlevel := levelVisited_foldl depth (id :: r) (t, seen, [])
      exact (ih _ _ _ _ ((hlevel.seen i).2 (.inl hi))).trans (hlevel.old i hi)

theorem visitLevels_succ (t : NodeTree) (seen : List NodeId) (depth fuel : Nat)
    (level : List NodeId) : t.visitLevels seen depth (fuel + 1) level =
      (level.foldl (visitLevel depth) (t, seen, [])).1.visitLevels
        (level.foldl (visitLevel depth) (t, seen, [])).2.1 (depth + 1) fuel
        (level.foldl (visitLevel depth) (t, seen, [])).2.2 := by
  cases level with
  | nil => cases fuel <;> rfl
  | cons => rfl

/-- **Where the walk stands at a depth**: nodes of less depth have been seen, and the level at hand
has those of this depth. -/
structure AtDepth (t : NodeTree) (depth : Nat) (seen level : List NodeId) : Prop where
  mem_seen : ∀ {i chain}, i < t.size → t.RenderChain i chain → (i ∈ seen ↔ chain.length < depth)
  mem_level : ∀ {i chain}, i < t.size → t.RenderChain i chain →
    (i ∈ level ↔ chain.length = depth)

section

variable (hlinked : ∀ p c, c ∈ t.renderMembers p ↔ t.renderParent? c = some p)

include hlinked

/-- **The next level.** -/
theorem AtDepth.next {depth : Nat} {seen level : List NodeId} {s : DepthWalk}
    (h : t.AtDepth depth seen level) (hs : LevelVisited depth level (t, seen, []) s) :
    s.1.AtDepth (depth + 1) s.2.1 s.2.2 where
  mem_seen {i chain} hi hchain := by
    rw [hs.unmoved.size_eq] at hi
    rw [RenderChain.unmoved_iff hs.unmoved] at hchain
    rw [hs.seen, h.mem_seen hi hchain, h.mem_level hi hchain]
    omega
  mem_level {i chain} hi hchain := by
    rw [hs.unmoved.size_eq] at hi
    rw [RenderChain.unmoved_iff hs.unmoved] at hchain
    have hnext : i ∈ s.2.2 ↔ ∃ p ∈ level, p ∉ seen ∧ t.renderParent? i = some p := by
      rw [hs.next]
      simp only [List.not_mem_nil, false_or, hlinked]
    rw [hnext]
    cases hchain with
    | outermost hnone => simp [hnone]
    | @inside _ p chain hp houter =>
      have hlt := lt_size_of_outer hlinked hp
      have hseen := h.mem_seen hlt houter
      have hlevel := h.mem_level hlt houter
      rw [hp, List.length_cons]
      constructor
      · rintro ⟨q, hq, -, heq⟩
        obtain rfl := Option.some.inj heq
        rw [hlevel.1 hq]
      · intro hdepth
        obtain rfl := Nat.succ.inj hdepth
        exact ⟨p, hlevel.2 rfl, fun hmem ↦ Nat.lt_irrefl _ (hseen.1 hmem), rfl⟩

/-- **The depths from a level on.** -/
theorem AtDepth.renderDepth? {depth fuel : Nat} {seen level : List NodeId}
    (h : t.AtDepth depth seen level) {i : NodeId} {chain : List NodeId} (hi : i < t.size)
    (hchain : t.RenderChain i chain) (hle : depth ≤ chain.length)
    (hlt : chain.length < depth + fuel) :
    (t.visitLevels seen depth fuel level).renderDepth? i = some chain.length := by
  induction fuel generalizing t depth seen level with
  | zero => omega
  | succ fuel ih =>
    have hs := levelVisited_foldl depth level (t, seen, [])
    have hnext := h.next hlinked hs
    rw [visitLevels_succ]
    generalize level.foldl (visitLevel depth) (t, seen, []) = s at hs hnext ⊢
    rcases Nat.eq_or_lt_of_le hle with rfl | hdeeper
    · -- the node is on this level and keeps the depth from here on
      have hmem := (h.mem_level hi hchain).2 rfl
      have hnew : i ∉ seen := fun hold ↦ Nat.lt_irrefl _ ((h.mem_seen hi hchain).1 hold)
      rw [renderDepth?_visitLevels _ _ _ _ _ ((hs.seen i).2 (.inr hmem)), hs.new i hmem hnew hi]
    · have hlinked' : ∀ p c, c ∈ s.1.renderMembers p ↔ s.1.renderParent? c = some p :=
        fun p c ↦ by rw [hs.unmoved.renderMembers, hs.unmoved.renderParent?, hlinked]
      exact ih hlinked' hnext (hs.unmoved.size_eq ▸ hi)
        ((RenderChain.unmoved_iff hs.unmoved).2 hchain) hdeeper (by omega)

end

/-! ### All nodes -/

/-- The numbers of the nodes that pass a test. -/
theorem mem_ids_filter {test : Node → Bool} {i : NodeId} :
    i ∈ (t.toList.filter test).map Node.id ↔ ∃ n, t.get? i = some n ∧ test n = true := by
  have hmem : ∀ {n}, n ∈ t.toList ↔ t.get? n.id = some n := fun {n} ↦ by
    constructor
    · intro hn
      obtain ⟨j, hj⟩ := List.mem_iff_getElem?.1 hn
      have hget : t.get? j = some n := (Array.getElem?_toList ..).symm.trans hj
      rwa [id_of_get? hget]
    · exact fun hn ↦ List.mem_of_getElem? ((Array.getElem?_toList ..).trans hn)
  rw [List.mem_map]
  constructor
  · rintro ⟨n, hn, rfl⟩
    obtain ⟨hn, htest⟩ := List.mem_filter.1 hn
    exact ⟨n, hmem.1 hn, htest⟩
  · rintro ⟨n, hn, htest⟩
    have hid := id_of_get? hn
    exact ⟨n, List.mem_filter.2 ⟨hmem.2 (hid.symm ▸ hn), htest⟩, hid⟩

/-- The outermost nodes. -/
theorem mem_outermost {i : NodeId} :
    i ∈ (t.toList.filter fun n ↦ n.renderParent.isNone).map Node.id ↔
      i < t.size ∧ t.renderParent? i = none := by
  rw [mem_ids_filter]
  constructor
  · rintro ⟨n, hn, htop⟩
    rw [renderParent?, place_of_get? hn]
    exact ⟨lt_size_of_get? hn, Option.isNone_iff_eq_none.1 htop⟩
  · rintro ⟨hi, hnone⟩
    obtain ⟨n, hn⟩ := exists_get? hi
    rw [renderParent?, place_of_get? hn] at hnone
    exact ⟨n, hn, Option.isNone_iff_eq_none.2 hnone⟩

/-- The nodes whose depth does not fit: it is not one more than that of what they render in, or not
zero if they are outermost. -/
theorem mem_renderDepthViolations {i : NodeId} : i ∈ t.renderDepthViolations ↔ i < t.size ∧
    t.renderDepth? i ≠ some (((t.renderParent? i).bind t.renderDepth?).elim 0 (· + 1)) := by
  have hfits : ∀ {n}, t.get? i = some n → (t.depthFits n = true ↔
      t.renderDepth? i = some (((t.renderParent? i).bind t.renderDepth?).elim 0 (· + 1))) := by
    intro n hn
    rw [renderParent?, place_of_get? hn, renderDepth?, hn, Option.map_some, Option.some_inj]
    have hparent : n.place.renderParent.bind t.renderDepth? =
        (n.renderParent.bind t.get?).map Node.renderDepth := Option.map_bind.symm
    rw [hparent, depthFits]
    cases n.renderParent.bind t.get? <;> exact beq_iff_eq
  rw [renderDepthViolations, mem_ids_filter]
  constructor
  · rintro ⟨n, hn, htest⟩
    rw [Bool.not_eq_true', ← Bool.not_eq_true, hfits hn] at htest
    exact ⟨lt_size_of_get? hn, htest⟩
  · rintro ⟨hi, hne⟩
    obtain ⟨n, hn⟩ := exists_get? hi
    rw [Ne, ← hfits hn, Bool.not_eq_true] at hne
    exact ⟨n, hn, by rw [hne]; rfl⟩

section

variable (hlinked : ∀ p c, c ∈ t.renderMembers p ↔ t.renderParent? c = some p)

include hlinked

/-- **The depth of a node is the number of nodes that it renders in.** -/
theorem renderDepth?_computeRenderDepths {i : NodeId} {chain : List NodeId} (hi : i < t.size)
    (hchain : t.RenderChain i chain) :
    t.computeRenderDepths.renderDepth? i = some chain.length := by
  have htop : t.AtDepth 0 [] ((t.toList.filter fun n ↦ n.renderParent.isNone).map Node.id) := by
    refine ⟨fun _ _ ↦ by simp, fun {i chain} hi hchain ↦ ?_⟩
    rw [mem_outermost]
    cases hchain with
    | outermost hnone => simp [hi, hnone]
    | inside hp => simp [hp]
  have hlt := hchain.length_lt hlinked hi
  exact htop.renderDepth? hlinked hi hchain (Nat.zero_le _) (by omega)

/-- **A node is one deeper in the output than what it renders in**, below every outermost node. -/
theorem graded_computeRenderDepths {o : Outline} (ho : o.Follows t.order) (hlt : o.id < t.size)
    (hnone : t.renderParent? o.id = none) : t.computeRenderDepths.Graded o.ids := by
  have hbelow : ∀ p, Inside t.order o.id p → p < t.size ∧ ∃ chain, t.RenderChain p chain := by
    intro p hp
    induction hp with
    | refl => exact ⟨hlt, [], .outermost hnone⟩
    | tail _ hc ih =>
      obtain ⟨-, chain, hchain⟩ := ih
      have hparent := (hlinked _ _).1 (mem_order.1 hc)
      exact ⟨lt_size_of_renderParent? hparent, _, .inside hparent hchain⟩
  intro p hp c hc
  rw [(unmoved_computeRenderDepths t).order, mem_order, hlinked] at hc
  obtain ⟨hp, chain, hchain⟩ := hbelow p ((Outline.mem_ids_iff ho).1 hp)
  rw [renderDepth?_computeRenderDepths hlinked hp hchain,
    renderDepth?_computeRenderDepths hlinked (lt_size_of_renderParent? hc) (.inside hc hchain)]
  rfl

end

end NodeTree

end ViewCompiler
