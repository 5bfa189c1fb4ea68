import ViewCompiler.Proofs.Layout.Depths
import ViewCompiler.Proofs.Outline
import ViewCompiler.Proofs.Template.Levels

/-!
# Resolution

When all nodes in the output have been on a level, nothing is announced and no node waits for a
placed one, so every slot in the output is bound (`Assembly.Complete`). Then a document expands to
the outline of its root (`Assembly.Complete.resolve_gives`): every node with what is inside between
its opening and its closing piece, a leaf as one piece, a replaced node as its text. No marker is
left.

The expansion runs with fuel and stops at a node on the path. In a forest it meets neither: the
numbers of an outline are distinct, and all but the first are bound to a slot.
-/

namespace ViewCompiler

open NodeTree

/-! ### The levels of a conversion -/

namespace Decided

/-- **Every node is on a level.** -/
theorem mem_levels {nodes : List Node} {i : NodeId} :
    (∃ level ∈ levels nodes, i ∈ level) ↔ ∃ n ∈ nodes, n.id = i := by
  rw [levels]
  simp only [List.mem_reverse, List.mem_map, SortedMap.values]
  constructor
  · rintro ⟨_, ⟨_, ⟨⟨depth, ids⟩, hentry, rfl⟩, rfl⟩, hi⟩
    rw [mem_stableSort] at hi
    rw [SortedMap.eq_of_mem_foldl_group Node.renderDepth Node.id hentry] at hi
    obtain ⟨n, hn, rfl⟩ := List.mem_map.1 hi
    exact ⟨n, (List.mem_filter.1 hn).1, rfl⟩
  · rintro ⟨n, hn, rfl⟩
    obtain ⟨ids, hentry, hmem⟩ := SortedMap.exists_mem_foldl_group Node.renderDepth Node.id hn
    exact ⟨_, ⟨ids, ⟨_, hentry, rfl⟩, rfl⟩, mem_stableSort.2 hmem⟩

/-- The nodes on the level of a depth have that depth. -/
theorem mem_lookup_level {t : NodeTree} {ids : List NodeId} {depth : Nat} {level : List NodeId}
    (hentry : (depth, level) ∈ ((t.lookup ids).foldl (fun m n ↦ m.insert n.renderDepth
      (m.getD n.renderDepth [] ++ [n.id])) (.empty : SortedMap Nat (List NodeId))).entries)
    {i : NodeId} (hi : i ∈ level) : i ∈ ids ∧ t.renderDepth? i = some depth := by
  rw [SortedMap.eq_of_mem_foldl_group Node.renderDepth Node.id hentry] at hi
  obtain ⟨n, hn, rfl⟩ := List.mem_map.1 hi
  obtain ⟨hn, hdepth⟩ := List.mem_filter.1 hn
  obtain ⟨j, hj, hget⟩ := List.mem_filterMap.1 hn
  have hid := id_of_get? hget
  rw [hid, renderDepth?, hget]
  exact ⟨hj, congrArg some (of_decide_eq_true hdepth)⟩

theorem mem_lookup_levels {t : NodeTree} {ids : List NodeId} (hlt : ∀ i ∈ ids, i < t.size)
    {i : NodeId} : (∃ level ∈ levels (t.lookup ids), i ∈ level) ↔ i ∈ ids := by
  rw [mem_levels]
  constructor
  · rintro ⟨n, hn, rfl⟩
    obtain ⟨j, hj, hget⟩ := List.mem_filterMap.1 hn
    rwa [id_of_get? hget]
  · intro hi
    obtain ⟨n, hn⟩ := exists_get? (hlt i hi)
    exact ⟨n, List.mem_filterMap.2 ⟨i, hi, hn⟩, id_of_get? hn⟩

end Decided

namespace Assembly

variable {t : NodeTree} {texts : SortedMap NodeId String} {done ids : List NodeId} {a : Assembly}

/-- Before the first level there are only the saved orders. -/
theorem assembling_saveOrders (texts : SortedMap NodeId String)
    {orders : List (NodeId × List NodeId)} (horders : ∀ e ∈ orders, e.2.Sublist (t.order e.1))
    {a : Assembly}
    (ha : a = orders.foldl (fun (a : Assembly) e ↦ a.saveOrder e.1 e.2) Assembly.empty) :
    Assembling t texts [] a ∧ a.announced = .empty := by
  have hfold : ∀ (l : List (NodeId × List NodeId)) (a : Assembly),
      l.foldl (fun a e ↦ a.saveOrder e.1 e.2) a = { a with orders := a.orders.insertAll l } :=
    fun l ↦ by
      induction l with
      | nil => exact fun _ ↦ rfl
      | cons e r ih => exact fun a ↦ ih (a.saveOrder e.1 e.2)
  rw [ha, hfold]
  refine ⟨⟨⟨fun i ↦ by simp [fragment?, Assembly.empty], fun i hi ↦ ?_, fun s c hs ↦ ?_,
    fun s c hs ↦ ?_, fun p q hq ↦ ?_, fun p order hp ↦ ?_⟩, fun c hc ↦ ?_, fun s c hs ↦ ?_,
    fun p hp ↦ ?_⟩, rfl⟩
  · exact absurd hi List.not_mem_nil
  · exact absurd hs (by simp [Assembly.empty])
  · exact absurd hs (by simp [Assembly.empty])
  · exact absurd hq (by simp [Assembly.empty])
  · rcases SortedMap.mem_of_get?_insertAll hp with hmem | hget
    · exact horders (p, order) hmem
    · exact absurd hget (by simp [Assembly.empty])
  · exact absurd hc List.not_mem_nil
  · exact absurd hs List.not_mem_nil
  · exact absurd hp List.not_mem_nil

/-- What holds when all of some nodes have been on a level: each has its fragment, and each slot of
one of them is bound to the node that it is for. -/
structure Complete (t : NodeTree) (texts : SortedMap NodeId String) (ids : List NodeId)
    (a : Assembly) : Prop where
  bindings : ∀ s c, a.bindings.get? s = some c → SlotFor t s c
  bound : ∀ s c, s.owner ∈ ids → SlotFor t s c → a.bindings.get? s = some c
  fragments : ∀ i ∈ ids, a.fragmentOf i = fragmentFor t texts i

/-- **Nothing is missing at the end.** -/
theorem Assembling.complete (h : Assembling t texts done a) (hannounced : a.announced = .empty)
    (hall : ∀ i ∈ ids, texts.get? i ≠ none ∨ t.order i ≠ [] → i ∈ done)
    (hclosed : ∀ i ∈ ids, ∀ c ∈ t.order i, c ∈ ids) : Complete t texts ids a where
  bindings := h.sound.bindings
  bound s c hs hslot := h.bound hannounced (hall _ hs (.inr (List.ne_nil_of_mem hslot.mem))) hslot
    (hall c (hclosed _ hs c hslot.mem))
  fragments i hi := by
    rw [fragmentOf, h.sound.fragments]
    split
    · rfl
    · rename_i hnot
      have hnone : texts.get? i = none :=
        not_not.1 fun htext ↦ hnot (hall i hi (.inl htext))
      have hnil : t.order i = [] := not_not.1 fun horder ↦ hnot (hall i hi (.inr horder))
      rw [fragmentFor, hnone, hnil]
      rfl

/-- Serving what waits once more changes nothing for the worse. -/
theorem Assembling.drainAll (h : Assembling t texts done a) (htexts : Textual t texts)
    (hannounced : a.announced = .empty) (l : List NodeId) :
    Assembling t texts done (l.foldl drain a) ∧ (l.foldl drain a).announced = .empty := by
  induction l generalizing a with
  | nil => exact ⟨h, hannounced⟩
  | cons p r ih =>
    refine ih (h.progress (progress_drain h.sound htexts p).1) ?_
    rw [← hannounced, drain]
    split
    · rfl
    · obtain ⟨m, hfold, -, -, -⟩ := exists_bindAll h.sound.bindings
        (l := (‹List (Placeholder × NodeId)›).filter fun e ↦ a.hasSlot e.1) fun e he ↦
          (h.sound.waiting p _ ‹_› e (List.mem_filter.1 he).1).2
      rw [hfold]

end Assembly

namespace Decided

/-- **The levels go from the inside to the outside** where every node is one deeper than what it
renders in. -/
theorem insideOut_levels {t : NodeTree} (texts : SortedMap NodeId String) {ids : List NodeId}
    (hlt : ∀ i ∈ ids, i < t.size) (hclosed : ∀ i ∈ ids, ∀ c ∈ t.order i, c ∈ ids)
    (hgraded : t.Graded ids) : Assembly.InsideOut t texts [] (levels (t.lookup ids)) := by
  have hdepth : ∀ {level}, level ∈ levels (t.lookup ids) →
      ∃ depth, ∀ i ∈ level, i ∈ ids ∧ t.renderDepth? i = some depth := fun {level} hlevel ↦ by
    rw [levels] at hlevel
    simp only [List.mem_reverse, List.mem_map, SortedMap.values] at hlevel
    obtain ⟨_, ⟨⟨depth, _⟩, hentry, rfl⟩, rfl⟩ := hlevel
    exact ⟨depth, fun i hi ↦ mem_lookup_level hentry (mem_stableSort.1 hi)⟩
  refine ⟨fun level hlevel p hp c hc _ ↦ .inr ?_, fun level hlevel p hp c hc hmem ↦ ?_, ?_⟩
  · obtain ⟨depth, hlevel⟩ := hdepth hlevel
    exact (mem_lookup_levels hlt).2 (hclosed p (hlevel p hp).1 c hc)
  · obtain ⟨depth, hlevel⟩ := hdepth hlevel
    have hnext := hgraded p (hlevel p hp).1 c hc
    rw [(hlevel p hp).2, (hlevel c hmem).2, Option.map_some] at hnext
    exact absurd (Option.some.inj hnext) (Nat.ne_of_lt (Nat.lt_succ_self depth))
  · -- the levels come in descending order of depth
    rw [levels, List.pairwise_reverse, List.pairwise_map, SortedMap.values, List.pairwise_map]
    refine (SortedMap.ascending _).imp_of_mem fun {e e'} he he' hlt p hp c hc hmem ↦ ?_
    have hp := mem_lookup_level he' (mem_stableSort.1 hp)
    have hc' := mem_lookup_level he (mem_stableSort.1 hmem)
    have hnext := hgraded p hp.1 c hc
    rw [hp.2, hc'.2, Option.map_some] at hnext
    exact absurd (Option.some.inj hnext)
      (Nat.ne_of_lt (Nat.lt_succ_of_lt (Nat.compare_eq_lt.1 hlt)))

/-- **The nodes in the output are assembled.** If every node is one deeper than what it renders in,
nothing is reported. -/
theorem exists_assemble {σ : Type} {d : Decided σ} {targets : List Target}
    {ids : List NodeId} (hbelow : d.run.context.tree.renderedBelow [] targets = .ok ids)
    (hnested : Nested d.run.context.tree) (htexts : Textual d.run.context.tree d.replacements)
    (horders : ∀ e ∈ d.orders, e.2.Sublist (d.run.context.tree.order e.1))
    (hlt : ∀ i ∈ ids, i < d.run.context.tree.size)
    (hclosed : ∀ i ∈ ids, ∀ c ∈ d.run.context.tree.order i, c ∈ ids) :
    ∃ a c, d.assemble targets = .ok (a, d.modify fun _ ↦ c) ∧
      (d.run.context.tree.Graded ids → c = d.run.context) ∧
      (a.waiting.keys.foldl Assembly.drain a).Complete d.run.context.tree d.replacements ids := by
  obtain ⟨hstart, hannounced⟩ := Assembly.assembling_saveOrders d.replacements horders rfl
  have hlevels : ∀ level ∈ levels (d.run.context.tree.lookup ids), ∀ i ∈ level,
      i < d.run.context.tree.size := fun level hlevel i hi ↦
    hlt i ((mem_lookup_levels hlt).1 ⟨level, hlevel, hi⟩)
  obtain ⟨a, c, done, hok, ha, hannounced', -, hplaced, hsilent⟩ :=
    hstart.exists_assembleLevels hnested htexts hannounced rfl hlevels
  obtain ⟨hdrained, hannounced''⟩ := ha.drainAll htexts hannounced' a.waiting.keys
  refine ⟨a, c, ?_, fun hgraded ↦ hsilent (fun p hp ↦ absurd hp List.not_mem_nil)
    (insideOut_levels d.replacements hlt hclosed hgraded),
    hdrained.complete hannounced'' (fun i hi hinner ↦ ?_) hclosed⟩
  · rw [assemble]
    simp only [hbelow, hok]
  · obtain ⟨level, hlevel, hmem⟩ := (mem_lookup_levels hlt).2 hi
    exact hplaced level hlevel i hmem hinner

end Decided

/-! ### Expansion -/

/-- The pieces of an outline: a text for a node that is replaced, one piece for a leaf, and two
around what is inside for any other node. -/
def Outline.pieces (texts : SortedMap NodeId String) : Outline → List Piece
  | node i below =>
    match texts.get? i with
    | some text => (Fragment.ofText text).pieces
    | none =>
      if below.isEmpty then [.selfClosing i]
      else .opening i :: below.flatMap (pieces texts) ++ [.closing i]

namespace Expansion

/-- An expansion to some pieces, without a slot that could not be filled. -/
def Gives (e : Expansion) (l : List Piece) : Prop :=
  e.pieces = l ∧ e.unresolved = [] ∧ e.cycles = []

theorem gives_ofPiece (p : Piece) : (ofPiece p).Gives [p] := ⟨rfl, rfl, rfl⟩

theorem gives_concat {es : List Expansion} {ls : List (List Piece)}
    (h : List.Forall₂ Gives es ls) : (concat es).Gives ls.flatten := by
  induction h with
  | nil => exact ⟨rfl, rfl, rfl⟩
  | cons he _ ih =>
    obtain ⟨hpieces, hunresolved, hcycles⟩ := he
    obtain ⟨hpieces', hunresolved', hcycles'⟩ := ih
    refine ⟨?_, ?_, ?_⟩
    · rw [concat, append, hpieces, hpieces', List.flatten_cons]
    · rw [concat, append, hunresolved, hunresolved', List.nil_append]
    · rw [concat, append, hcycles, hcycles', List.nil_append]

end Expansion

namespace Assembly

variable {t t' : NodeTree} {texts : SortedMap NodeId String} {ids : List NodeId} {a : Assembly}

/-- Pieces that are no slots are left as they are. -/
theorem gives_expandPiece {root : NodeId} {path : List NodeId} {inner : NodeId → Expansion}
    {ps : List Piece} (hps : (Fragment.mk ps).slots = []) :
    (Expansion.concat (ps.map (a.expandPiece t' root path inner))).Gives ps := by
  have heach : ∀ p ∈ ps, (a.expandPiece t' root path inner p).Gives [p] := fun p hp ↦ by
    cases p with
    | slot s =>
      rw [Fragment.slots, List.filterMap_eq_nil_iff] at hps
      exact absurd (hps _ hp) (by simp)
    | _ => exact Expansion.gives_ofPiece _
  have hall : List.Forall₂ Expansion.Gives (ps.map (a.expandPiece t' root path inner))
      (ps.map fun p ↦ [p]) := by
    rw [List.forall₂_map_left_iff, List.forall₂_map_right_iff, List.forall₂_same]
    exact heach
  have hflat : (ps.map fun p ↦ [p]).flatten = ps := by
    rw [← List.flatMap_def, List.flatMap_singleton']
  have hgives := Expansion.gives_concat hall
  rwa [hflat] at hgives

/-- A bound slot is filled with what the node in it expands to. -/
theorem Complete.slot_gives (h : Complete t texts ids a) {root : NodeId} {path : List NodeId}
    {inner : NodeId → Expansion} {s : Placeholder} {c : NodeId} (hs : s.owner ∈ ids)
    (hslot : SlotFor t s c) (hc : c ∉ path) {l : List Piece} (hinner : (inner c).Gives l) :
    (a.expandPiece t' root path inner (.slot s)).Gives l := by
  have hfree : path.contains c = false := by simpa using hc
  rw [expandPiece, binding?, h.bound s c hs hslot]
  simp only [hfree]
  exact hinner

/-- A node expands to its own pieces around those of the nodes in its slots. -/
theorem container_gives {root : NodeId} {path : List NodeId} {inner : NodeId → Expansion}
    {i : NodeId} {ls : List (List Piece)}
    (hls : ∀ k (hk : k < ls.length),
      (a.expandPiece t' root path inner (.slot ⟨i, (k : Nat)⟩)).Gives ls[k]) :
    (Expansion.concat ((Fragment.container i ls.length).pieces.map
      (a.expandPiece t' root path inner))).Gives
        (if ls.isEmpty then [.selfClosing i] else .opening i :: ls.flatten ++ [.closing i]) := by
  cases ls with
  | nil => exact gives_expandPiece rfl
  | cons l r =>
    have hinner : List.Forall₂ Expansion.Gives
        (((List.range (l :: r).length).map fun k : Nat ↦ Piece.slot ⟨i, k⟩).map
          (a.expandPiece t' root path inner)) (l :: r) := by
      refine List.forall₂_iff_get.2 ⟨by simp, fun k hk hk' ↦ ?_⟩
      simpa using hls k hk'
    have hall := Expansion.gives_concat (List.Forall₂.cons (Expansion.gives_ofPiece (.opening i))
      (List.rel_append hinner (.cons (Expansion.gives_ofPiece (.closing i)) .nil)))
    rw [Fragment.container, if_neg (by simp)]
    simpa [expandPiece] using hall

/-- **A node expands to its outline.** -/
theorem Complete.expand_gives (h : Complete t texts ids a) (htexts : Textual t texts)
    {root : NodeId} {o : Outline} (ho : o.Follows t.order) (hids : ∀ i ∈ o.ids, i ∈ ids)
    (hnodup : o.ids.Nodup) {fuel : Nat} (hfuel : o.ids.length ≤ fuel) {path : List NodeId}
    (hpath : ∀ i ∈ path, i ∈ o.ids → i = o.id) :
    (a.expand t' root fuel path o.id).Gives (o.pieces texts) := by
  induction o using Outline.induction generalizing fuel path with
  | h i below ih =>
    obtain ⟨hbelow, hfollows⟩ := Outline.follows_node.1 ho
    rw [Outline.ids_node] at hids hnodup hfuel hpath
    obtain ⟨fuel, rfl⟩ : ∃ n, fuel = n + 1 := ⟨fuel - 1, by rw [List.length_cons] at hfuel; omega⟩
    rw [Outline.id, expand, h.fragments i (hids i List.mem_cons_self), fragmentFor, Outline.pieces]
    cases htext : texts.get? i with
    | some text => exact gives_expandPiece (htexts.slots i text htext)
    | none =>
      obtain ⟨hi, hnodup⟩ := List.nodup_cons.1 hnodup
      have hchild : ∀ b ∈ below, b.ids ⊆ below.flatMap Outline.ids := fun b hb j hj ↦
        List.mem_flatMap.2 ⟨b, hb, hj⟩
      have hgives : ∀ b ∈ below, b.id ∉ path ∧
          (a.expand t' root fuel (b.id :: path) b.id).Gives (b.pieces texts) := fun b hb ↦ by
        have hout : ∀ j ∈ path, j ∉ b.ids := fun j hj hmem ↦ by
          have hin := hchild b hb hmem
          rw [hpath j hj (List.mem_cons_of_mem _ hin)] at hin
          exact hi hin
        refine ⟨fun hmem ↦ hout _ hmem (Outline.id_mem_ids b), ih b hb (hfollows b hb)
          (fun j hj ↦ hids j (List.mem_cons_of_mem _ (hchild b hb hj)))
          ((List.nodup_flatMap.1 hnodup).1 b hb) ?_ fun j hj hmem ↦ ?_⟩
        · have hmem : b.ids ∈ below.map Outline.ids := List.mem_map_of_mem hb
          have hle := (List.sublist_flatten_of_mem hmem).length_le
          rw [← List.flatMap_def] at hle
          rw [List.length_cons] at hfuel
          omega
        · exact (List.mem_cons.1 hj).resolve_right fun hj ↦ hout j hj hmem
      have hslots : ∀ k (hk : k < (below.map (Outline.pieces texts)).length),
          (a.expandPiece t' root path (fun child ↦ a.expand t' root fuel (child :: path) child)
            (.slot ⟨i, (k : Nat)⟩)).Gives (below.map (Outline.pieces texts))[k] := fun k hk ↦ by
        rw [List.length_map] at hk
        obtain ⟨hfree, hpieces⟩ := hgives below[k] (List.getElem_mem hk)
        rw [List.getElem_map]
        refine h.slot_gives (hids i List.mem_cons_self) ⟨k, rfl, ?_⟩ hfree hpieces
        rw [← hbelow, List.getElem?_map, List.getElem?_eq_getElem hk, Option.map_some]
      have hcontainer := container_gives hslots
      rw [List.isEmpty_map, ← List.flatMap_def, List.length_map] at hcontainer
      rwa [← hbelow, List.length_map]

/-- All numbers of an outline but the first are bound, so there are not more than bindings. -/
theorem Complete.length_ids_le (h : Complete t texts ids a) {o : Outline}
    (ho : o.Follows t.order) (hids : ∀ i ∈ o.ids, i ∈ ids) (hnodup : o.ids.Nodup) :
    o.ids.length ≤ a.bindings.size + 1 := by
  obtain ⟨i, below⟩ := o
  have hmem : ∀ c ∈ below.flatMap Outline.ids, c ∈ a.bindings.values := fun c hc ↦ by
    have hin := List.mem_cons_of_mem i hc
    rw [← Outline.ids_node, Outline.mem_ids_iff ho] at hin
    rw [Outline.ids_node] at hnodup
    rcases Relation.ReflTransGen.cases_tail hin with rfl | ⟨p, hp, hpc⟩
    · exact absurd hc (List.nodup_cons.1 hnodup).1
    · obtain ⟨k, hslot⟩ := exists_slotFor hpc
      have hbound := h.bound _ c (hids p ((Outline.mem_ids_iff ho).2 hp)) hslot
      exact List.mem_map.2 ⟨_, SortedMap.mem_entries_iff.2 hbound, rfl⟩
  rw [Outline.ids_node] at hnodup ⊢
  have hle := (List.subperm_of_subset (List.nodup_cons.1 hnodup).2 hmem).length_le
  rw [SortedMap.values, List.length_map] at hle
  exact Nat.succ_le_succ hle

/-- **A document expands to the outline of its root.** -/
theorem Complete.resolve_gives (h : Complete t texts ids a) (htexts : Textual t texts)
    {o : Outline} (ho : o.Follows t.order) (hids : ∀ i ∈ o.ids, i ∈ ids) (hnodup : o.ids.Nodup) :
    (a.resolve t' o.id).Gives (o.pieces texts) :=
  h.expand_gives htexts ho hids hnodup (h.length_ids_le ho hids hnodup) fun _ hi _ ↦
    List.mem_singleton.1 hi

end Assembly

end ViewCompiler
