import ViewCompiler.Proofs.SortedMap
import ViewCompiler.Template.Assembly

/-!
# Saved orders

The order that was saved for a node is carried out at the end of a level, on whatever the slots of
the node are bound to by then. `Assembly.finishLevel_savedOrder` says that this is all or nothing.
Either every node of the order is bound under its owner; then the slots of these nodes, and no
others, are bound anew, so that from the first slot to the last they hold the nodes as ordered, and
the owner keeps the nodes it had. Or some node is not bound; then all such nodes are reported
together and no binding changes. The order is forgotten in both cases.

No node is lost or doubled while the slots are overwritten one after another, because the slots
that are overwritten are sorted before, and are exactly the slots that the nodes of the order come
from (`Assembly.stableSort_slotsByNode`). For this a node must not be bound to two slots of the
owner: the look-up from nodes to slots would forget one of them.
-/

namespace ViewCompiler

namespace Assembly

variable {a : Assembly} {owner : NodeId} {order : List NodeId}

/-- The nodes that the slots of a node are bound to, from the first slot to the last. -/
def boundIn (a : Assembly) (owner : NodeId) : List NodeId :=
  (a.bindings.entries.filter fun e ↦ e.1.owner = owner).map Prod.snd

/-- The slots of a node that are bound to members of an order, from the first to the last. -/
def slotsIn (a : Assembly) (owner : NodeId) (order : List NodeId) : List Placeholder :=
  (a.bindings.entries.filter fun e ↦ e.1.owner = owner ∧ e.2 ∈ order).map Prod.fst

theorem mem_boundIn {c : NodeId} :
    c ∈ a.boundIn owner ↔ ∃ s, s.owner = owner ∧ a.binding? s = some c := by
  simp only [boundIn, List.mem_map, List.mem_filter, decide_eq_true_eq, Prod.exists,
    exists_eq_right, SortedMap.mem_entries_iff, binding?]
  exact exists_congr fun s ↦ and_comm

theorem mem_slotsIn {s : Placeholder} :
    s ∈ a.slotsIn owner order ↔ s.owner = owner ∧ ∃ c ∈ order, a.binding? s = some c := by
  simp only [slotsIn, List.mem_map, List.mem_filter, decide_eq_true_eq, Prod.exists,
    exists_and_right, exists_eq_right, SortedMap.mem_entries_iff, binding?]
  exact ⟨fun ⟨c, hc, ho, hmem⟩ ↦ ⟨ho, c, hmem, hc⟩, fun ⟨ho, c, hmem, hc⟩ ↦ ⟨c, hc, ho, hmem⟩⟩

theorem pairwise_slotsIn (a : Assembly) (owner : NodeId) (order : List NodeId) :
    (a.slotsIn owner order).Pairwise fun p q ↦ compare p q = .lt :=
  List.pairwise_map.2 (a.bindings.ascending.filter _)

theorem nodup_slotsIn (a : Assembly) (owner : NodeId) (order : List NodeId) :
    (a.slotsIn owner order).Nodup :=
  (a.pairwise_slotsIn owner order).imp fun {p q} hlt heq ↦ by
    have hself : compare q q = .eq := Std.ReflCmp.compare_self
    rw [heq, hself] at hlt
    exact absurd hlt (by decide)

/-- No node is bound to two slots of one node. -/
theorem nodup_boundIn_iff : (a.boundIn owner).Nodup ↔
    ∀ s s' c, s.owner = owner → s'.owner = owner → a.binding? s = some c →
      a.binding? s' = some c → s = s' := by
  rw [boundIn, List.nodup_map_iff_inj_on (a.bindings.nodup_keys.of_map.filter _)]
  simp only [List.mem_filter, decide_eq_true_eq]
  constructor
  · intro h s s' c hs hs' hc hc'
    exact congrArg Prod.fst (h (s, c) ⟨SortedMap.mem_entries_iff.2 hc, hs⟩ (s', c)
      ⟨SortedMap.mem_entries_iff.2 hc', hs'⟩ rfl)
  · rintro h ⟨s, c⟩ ⟨hc, hs⟩ ⟨s', c'⟩ ⟨hc', hs'⟩ heq
    obtain rfl : c = c' := heq
    rw [h s s' c hs hs' (SortedMap.mem_entries_iff.1 hc) (SortedMap.mem_entries_iff.1 hc')]

/-! ### From nodes to slots -/

theorem isLE_total (p q : Placeholder) :
    (compare p q).isLE = true ∨ (compare q p).isLE = true := by
  rw [Std.OrientedOrd.eq_swap (a := q), Ordering.isLE_swap]
  cases compare p q <;> simp

section

variable (hone : (a.boundIn owner).Nodup)

include hone

/-- The look-up from nodes to slots turns the bindings of a node around. -/
theorem get?_slotsByNode_eq_some_iff {c : NodeId} {s : Placeholder} :
    (a.slotsByNode owner).get? c = some s ↔ s.owner = owner ∧ a.binding? s = some c := by
  have hkeys : (((a.bindings.entries.filter fun e ↦ e.1.owner = owner).map fun e ↦
      (e.2, e.1)).map Prod.fst).Nodup := by
    rw [List.map_map]
    exact hone
  rw [slotsByNode, SortedMap.ofList, SortedMap.get?_insertAll_eq_some_iff hkeys]
  simp only [SortedMap.get?_empty, reduceCtorEq, and_false, or_false, List.mem_map,
    List.mem_filter, decide_eq_true_eq, Prod.mk.injEq, Prod.exists, binding?]
  constructor
  · rintro ⟨s', c', ⟨hmem, howner⟩, rfl, rfl⟩
    exact ⟨howner, SortedMap.mem_entries_iff.1 hmem⟩
  · rintro ⟨howner, hget⟩
    exact ⟨s, c, ⟨SortedMap.mem_entries_iff.2 hget, howner⟩, rfl, rfl⟩

theorem contains_slotsByNode (c : NodeId) :
    (a.slotsByNode owner).contains c = decide (c ∈ a.boundIn owner) := by
  rw [Bool.eq_iff_iff, decide_eq_true_eq, mem_boundIn, SortedMap.contains, Option.isSome_iff_exists]
  exact exists_congr fun s ↦ get?_slotsByNode_eq_some_iff hone

/-- **The slots that are bound anew**, once sorted, are those that the members are bound to. -/
theorem stableSort_slotsByNode (horder : order.Nodup) :
    stableSort (fun p q ↦ (compare p q).isLE) (order.filterMap (a.slotsByNode owner).get?) =
      a.slotsIn owner order := by
  have hnodup : (order.filterMap (a.slotsByNode owner).get?).Nodup :=
    horder.filterMap fun c c' s hs hs' ↦ by
      obtain ⟨-, hc⟩ := (get?_slotsByNode_eq_some_iff hone).1 hs
      obtain ⟨-, hc'⟩ := (get?_slotsByNode_eq_some_iff hone).1 hs'
      exact Option.some.inj (hc.symm.trans hc')
  have hmem : ∀ s, s ∈ order.filterMap (a.slotsByNode owner).get? ↔ s ∈ a.slotsIn owner order :=
    fun s ↦ by
      simp only [List.mem_filterMap, get?_slotsByNode_eq_some_iff hone, mem_slotsIn]
      exact ⟨fun ⟨c, hc, howner, hs⟩ ↦ ⟨howner, c, hc, hs⟩,
        fun ⟨howner, c, hc, hs⟩ ↦ ⟨c, hc, howner, hs⟩⟩
  have hperm := (perm_stableSort (fun p q ↦ (compare p q).isLE) _).trans
    ((List.perm_ext_iff_of_nodup hnodup (a.nodup_slotsIn owner order)).2 hmem)
  have hsorted : (stableSort (fun p q : Placeholder ↦ (compare p q).isLE)
      (order.filterMap (a.slotsByNode owner).get?)).Pairwise fun p q ↦
        (compare p q).isLE = true :=
    pairwise_stableSort isLE_total (fun p q r ↦ Std.TransCmp.isLE_trans) _
  refine hperm.eq_of_pairwise (fun p q _ _ hle hge ↦ ?_) hsorted
    ((a.pairwise_slotsIn owner order).imp fun hlt ↦ by rw [hlt]; rfl)
  exact Std.LawfulEqCmp.eq_of_compare (Std.OrientedCmp.isLE_antisymm hle hge)

end

/-! ### Binding anew -/

theorem foldl_bind (a : Assembly) (l : List (Placeholder × NodeId)) :
    l.foldl (fun a e ↦ a.bind e.1 e.2) a = { a with bindings := a.bindings.insertAll l } := by
  induction l generalizing a with
  | nil => rfl
  | cons e r ih => exact ih (a.bind e.1 e.2)

/-- `a'` comes of `a` by binding anew the slots of `owner` that the members of `order` are bound
to. -/
structure Reordered (owner : NodeId) (order : List NodeId) (a a' : Assembly) : Prop where
  /-- From the first slot to the last, the slots hold the members as ordered. -/
  ordered : (a.slotsIn owner order).map a'.binding? = order.map some
  others : ∀ s ∉ a.slotsIn owner order, a'.binding? s = a.binding? s

/-- A slot of the owner is bound to a member exactly if it is one of those to be bound anew. -/
theorem mem_slotsIn_iff {s : Placeholder} {c : NodeId} (howner : s.owner = owner)
    (hs : a.binding? s = some c) : s ∈ a.slotsIn owner order ↔ c ∈ order := by
  rw [mem_slotsIn, hs]
  exact ⟨fun ⟨_, _, hmem, heq⟩ ↦ Option.some.inj heq ▸ hmem, fun hmem ↦ ⟨howner, c, hmem, rfl⟩⟩

namespace Reordered

variable {a' : Assembly} (h : Reordered owner order a a')

include h

theorem mem_order_iff {s : Placeholder} {c : NodeId} (howner : s.owner = owner)
    (hs : a'.binding? s = some c) : c ∈ order ↔ s ∈ a.slotsIn owner order := by
  constructor
  · intro hc
    by_contra hnot
    rw [h.others s hnot] at hs
    exact hnot ((mem_slotsIn_iff howner hs).2 hc)
  · intro hslot
    have hmem : a'.binding? s ∈ order.map some := h.ordered ▸ List.mem_map_of_mem hslot
    simpa [hs] using hmem

theorem exists_slot {c : NodeId} (hc : c ∈ order) :
    ∃ s ∈ a.slotsIn owner order, a'.binding? s = some c := by
  have hmem : some c ∈ (a.slotsIn owner order).map a'.binding? :=
    h.ordered ▸ List.mem_map_of_mem hc
  exact List.mem_map.1 hmem

theorem nodup_boundIn (hone : (a.boundIn owner).Nodup) (horder : order.Nodup) :
    (a'.boundIn owner).Nodup := by
  refine nodup_boundIn_iff.2 fun s s' c howner howner' hs hs' ↦ ?_
  by_cases hc : c ∈ order
  · have hnodup : ((a.slotsIn owner order).map a'.binding?).Nodup := by
      rw [h.ordered]
      exact horder.map fun _ _ ↦ Option.some.inj
    exact List.inj_on_of_nodup_map hnodup ((h.mem_order_iff howner hs).1 hc)
      ((h.mem_order_iff howner' hs').1 hc) (hs.trans hs'.symm)
  · rw [h.others s fun hmem ↦ hc ((h.mem_order_iff howner hs).2 hmem)] at hs
    rw [h.others s' fun hmem ↦ hc ((h.mem_order_iff howner' hs').2 hmem)] at hs'
    exact nodup_boundIn_iff.1 hone s s' c howner howner' hs hs'

/-- **The owner has the nodes that it had**, each one once. -/
theorem perm_boundIn (hone : (a.boundIn owner).Nodup) (horder : order.Nodup)
    (hbound : order ⊆ a.boundIn owner) : (a'.boundIn owner).Perm (a.boundIn owner) := by
  refine (List.perm_ext_iff_of_nodup (h.nodup_boundIn hone horder) hone).2 fun c ↦ ?_
  by_cases hc : c ∈ order
  · obtain ⟨s, hslot, hs⟩ := h.exists_slot hc
    exact iff_of_true (mem_boundIn.2 ⟨s, (mem_slotsIn.1 hslot).1, hs⟩) (hbound hc)
  · rw [mem_boundIn, mem_boundIn]
    refine exists_congr fun s ↦ and_congr_right fun howner ↦ ⟨fun hs ↦ ?_, fun hs ↦ ?_⟩
    · rwa [← h.others s fun hmem ↦ hc ((h.mem_order_iff howner hs).2 hmem)]
    · rwa [h.others s fun hmem ↦ hc ((mem_slotsIn_iff howner hs).1 hmem)]

end Reordered

section

variable (hone : (a.boundIn owner).Nodup) (horder : order.Nodup)

include hone horder

theorem length_slotsIn (hbound : order ⊆ a.boundIn owner) :
    (a.slotsIn owner order).length = order.length := by
  rw [← stableSort_slotsByNode hone horder, length_stableSort,
    List.filterMap_length_eq_length]
  intro c hc
  obtain ⟨s, howner, hs⟩ := mem_boundIn.1 (hbound hc)
  rw [(get?_slotsByNode_eq_some_iff hone).2 ⟨howner, hs⟩]
  rfl

/-- **Binding the slots one after another** gives every slot its own member. -/
theorem reordered_insertAll (hbound : order ⊆ a.boundIn owner) :
    Reordered owner order a
      { a with bindings := a.bindings.insertAll ((a.slotsIn owner order).zip order) } := by
  have hlength := length_slotsIn hone horder hbound
  have hkeys : ((a.slotsIn owner order).zip order).map Prod.fst = a.slotsIn owner order :=
    List.map_fst_zip (Nat.le_of_eq hlength)
  have hget : ∀ s c, (a.bindings.insertAll ((a.slotsIn owner order).zip order)).get? s = some c ↔
      (s, c) ∈ (a.slotsIn owner order).zip order ∨
        s ∉ a.slotsIn owner order ∧ a.bindings.get? s = some c := fun s c ↦ by
    rw [SortedMap.get?_insertAll_eq_some_iff (by rw [hkeys]; exact a.nodup_slotsIn owner order),
      hkeys]
  refine ⟨List.ext_getElem (by simpa using hlength) fun i hi hi' ↦ ?_, fun s hs ↦ ?_⟩
  · have hzip : i < ((a.slotsIn owner order).zip order).length := by
      rw [List.length_zip, hlength, Nat.min_self]
      simpa using hi'
    rw [List.getElem_map, List.getElem_map]
    refine (hget _ _).2 (.inl ?_)
    rw [← List.getElem_zip (h := hzip)]
    exact List.getElem_mem hzip
  · refine Option.ext fun c ↦ (hget s c).trans ?_
    have hnot : (s, c) ∉ (a.slotsIn owner order).zip order := fun hmem ↦
      hs (List.of_mem_zip hmem).1
    simp only [hnot, hs, not_false_eq_true, true_and, false_or]
    rfl

/-- What becomes of an order, with nothing about how. -/
theorem applyOrder_eq : a.applyOrder owner order =
    if order ⊆ a.boundIn owner then
      .ok { a with bindings := a.bindings.insertAll ((a.slotsIn owner order).zip order) }
    else .error (.partialReorder owner (order.filter fun c ↦ c ∉ a.boundIn owner)) := by
  have hmissing : (order.filter fun c ↦ !(a.slotsByNode owner).contains c) =
      order.filter fun c ↦ c ∉ a.boundIn owner :=
    List.filter_congr fun c _ ↦ by rw [contains_slotsByNode hone, decide_not]
  rw [applyOrder]
  dsimp only
  rw [hmissing, stableSort_slotsByNode hone horder, foldl_bind]
  refine if_congr ?_ rfl rfl
  rw [List.isEmpty_iff, List.filter_eq_nil_iff]
  simp [List.subset_def]

end

/-- One saved order, carried out at the end of a level on which nothing was announced. -/
theorem finishLevel_eq_carryOut (hplaced : a.isPlaced owner = true)
    (hannounced : a.announced = .empty) (horders : a.orders.entries = [(owner, order)]) :
    a.finishLevel = ((carryOut (a, []) (owner, order)).2,
      { (carryOut (a, []) (owner, order)).1 with levelOpen := false }) := by
  have hcommitted : a.announced.entries.foldl (fun a e ↦ a.commit e.1 e.2)
      { a with announced := .empty } = a := by
    have hself : { a with announced := .empty } = a := by rw [← hannounced]
    rw [hself, hannounced]
    rfl
  have hready : (a.orders.entries.filter fun e ↦ a.isPlaced e.1) = [(owner, order)] := by
    rw [horders]
    simp [hplaced]
  rw [finishLevel]
  dsimp only
  rw [hcommitted, hready]
  rfl

/-- The only saved order is forgotten. -/
theorem erase_orders (horders : a.orders.entries = [(owner, order)]) :
    a.orders.erase owner = .empty := by
  refine SortedMap.ext_get? fun k ↦ ?_
  rw [SortedMap.get?_erase, SortedMap.get?_empty]
  split
  · rfl
  · rename_i hk
    refine SortedMap.lookup_eq_none_iff.2 fun e he ↦ ?_
    rw [horders, List.mem_singleton] at he
    exact he ▸ Ne.symm hk

/-- **A saved order is all or nothing.** At the end of a level on which nothing was announced, the
only order that was saved, for a node that has its fragment, is forgotten. If all its members are
bound under its owner, their slots are bound anew in the order saved; if not, those that are unbound
are reported and no binding changes. -/
theorem finishLevel_savedOrder (hplaced : a.isPlaced owner = true)
    (hone : (a.boundIn owner).Nodup) (horder : order.Nodup) (hannounced : a.announced = .empty)
    (horders : a.orders.entries = [(owner, order)]) :
    (order ⊆ a.boundIn owner ∧ ∃ a', a.finishLevel = ([], a') ∧
        a' = { a with bindings := a'.bindings, orders := .empty, levelOpen := false } ∧
        Reordered owner order a a' ∧ (a'.boundIn owner).Perm (a.boundIn owner)) ∨
      (¬order ⊆ a.boundIn owner ∧
        a.finishLevel = ([.partialReorder owner (order.filter fun c ↦ c ∉ a.boundIn owner)],
          { a with orders := .empty, levelOpen := false })) := by
  have hfinish := finishLevel_eq_carryOut hplaced hannounced horders
  have happly := applyOrder_eq (a := { a with orders := .empty }) hone horder
  by_cases hbound : order ⊆ a.boundIn owner
  · have hcarry : carryOut (a, []) (owner, order) = ({ a with
        orders := .empty
        bindings := a.bindings.insertAll ((a.slotsIn owner order).zip order) }, []) := by
      rw [carryOut, erase_orders horders, happly.trans (if_pos hbound)]
      rfl
    have hreordered := reordered_insertAll hone horder hbound
    rw [hcarry] at hfinish
    exact .inl ⟨hbound, _, hfinish, rfl, ⟨hreordered.ordered, hreordered.others⟩,
      hreordered.perm_boundIn hone horder hbound⟩
  · have hcarry : carryOut (a, []) (owner, order) = ({ a with orders := .empty },
        [.partialReorder owner (order.filter fun c ↦ c ∉ a.boundIn owner)]) := by
      rw [carryOut, erase_orders horders, happly.trans (if_neg hbound)]
      rfl
    rw [hcarry] at hfinish
    exact .inr ⟨hbound, hfinish⟩

/-- Of the nodes 3, 5 and 4 in the slots of node 0, the outer two change places. -/
theorem finishLevel_savedOrder_outer :
    let a : Assembly := { empty with
      fragments := SortedMap.empty.insert 0 (.container 0 3)
      bindings := .ofList [(⟨0, 0⟩, 3), (⟨0, 1⟩, 5), (⟨0, 2⟩, 4), (⟨1, 0⟩, 6)]
      orders := SortedMap.empty.insert 0 [4, 3]
      levelOpen := true }
    ∃ a', a.finishLevel = ([], a') ∧ (a.slotsIn 0 [4, 3]).map a'.binding? = [some 4, some 3] ∧
      a'.boundIn 0 = [4, 5, 3] := by
  intro a
  have hone : (a.boundIn 0).Nodup := by decide
  have horder : [4, 3].Nodup := by decide
  obtain ⟨-, a', hfinish, -, hreordered, -⟩ | ⟨hnot, -⟩ :=
    finishLevel_savedOrder (a := a) (by decide) hone horder rfl (by decide)
  · refine ⟨a', hfinish, hreordered.ordered, ?_⟩
    obtain rfl : a.finishLevel.2 = a' := congrArg Prod.snd hfinish
    decide
  · exact absurd (by decide) hnot

end Assembly

end ViewCompiler
