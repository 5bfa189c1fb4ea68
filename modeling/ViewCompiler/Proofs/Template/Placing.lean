import ViewCompiler.Proofs.Layout.Links
import ViewCompiler.Proofs.SortedMap
import ViewCompiler.Template.Assembly

/-!
# Placing nodes

A node around others has a slot for each of them, numbered in the order of output. In a tree in
which the render parents and the nodes inside fit (`Nested`), a slot is for one node, a node has one
slot (`Nested.slot_unique`), and that is the slot in which the assembly announces it
(`Nested.slotOf_eq`).

Nodes get their fragments in any order, and what is bound to a slot does not depend on it.
`Assembly.Sound` says that whatever an assembly knows of a slot, bound, announced or waiting, is the
node that the slot is for. Nothing that is known is forgotten, and no node waits for one that is
placed: both are kept by every operation (`Assembly.Progress`).
-/

namespace ViewCompiler

open NodeTree

/-! ### Slots -/

section Slots

/-- What renders in a node is what has it as its render parent. -/
structure Nested (t : NodeTree) : Prop where
  mem_iff : ∀ p c, c ∈ t.renderMembers p ↔ t.renderParent? c = some p
  nodup : ∀ p, (t.renderMembers p).Nodup

/-- A slot is for a node that renders in its owner. -/
def SlotFor (t : NodeTree) (s : Placeholder) (c : NodeId) : Prop :=
  ∃ k : Nat, s.position = k ∧ (t.order s.owner)[k]? = some c

variable {t : NodeTree}

namespace SlotFor

variable {s : Placeholder} {c c' : NodeId}

theorem mem (h : SlotFor t s c) : c ∈ t.order s.owner := by
  obtain ⟨k, -, hk⟩ := h
  exact List.mem_of_getElem? hk

/-- A slot is for one node. -/
theorem unique (h : SlotFor t s c) (h' : SlotFor t s c') : c = c' := by
  obtain ⟨k, hs, hk⟩ := h
  obtain ⟨k', hs', hk'⟩ := h'
  obtain rfl : k = k' := Int.ofNat_inj.1 (hs.symm.trans hs')
  exact Option.some.inj (hk.symm.trans hk')

end SlotFor

theorem exists_slotFor {p c : NodeId} (h : c ∈ t.order p) : ∃ k : Nat, SlotFor t ⟨p, k⟩ c := by
  obtain ⟨k, hk⟩ := List.getElem?_of_mem h
  exact ⟨k, k, rfl, hk⟩

theorem lt_size_of_mem_order {p c : NodeId} (h : c ∈ t.order p) : p < t.size :=
  lt_size_of_mem_renderMembers (mem_order.1 h)

namespace Nested

variable (h : Nested t)

include h

theorem mem_order_iff {p c : NodeId} : c ∈ t.order p ↔ t.renderParent? c = some p :=
  mem_order.trans (h.mem_iff p c)

theorem nodup_order (p : NodeId) : (t.order p).Nodup := (t.perm_order p).nodup_iff.2 (h.nodup p)

/-- **A node has one slot.** -/
theorem slot_unique {s s' : Placeholder} {c : NodeId} (hs : SlotFor t s c)
    (hs' : SlotFor t s' c) : s = s' := by
  have howner : s.owner = s'.owner :=
    Option.some.inj ((h.mem_order_iff.1 hs.mem).symm.trans (h.mem_order_iff.1 hs'.mem))
  obtain ⟨k, hpos, hk⟩ := hs
  obtain ⟨k', hpos', hk'⟩ := hs'
  rw [← howner] at hk'
  obtain ⟨hlt, -⟩ := List.getElem?_eq_some_iff.1 hk
  have hindex : k = k' :=
    (List.getElem?_inj hlt (h.nodup_order s.owner)).1 (hk.trans hk'.symm)
  cases s
  cases s'
  simp_all

/-- **A node is announced in its slot.** -/
theorem slotOf_eq {c : NodeId} (hc : c < t.size) :
    (t.renderParent? c = none ∧ Assembly.slotOf t c = .ok none) ∨
      ∃ s, SlotFor t s c ∧ Assembly.slotOf t c = .ok (some s) := by
  obtain ⟨n, hn⟩ := exists_get? hc
  have hparent : t.renderParent? c = n.renderParent := by
    rw [renderParent?, place_of_get? hn]
    rfl
  rw [Assembly.slotOf, hn]
  dsimp only
  cases hp : n.renderParent with
  | none => exact .inl ⟨hparent.trans hp, rfl⟩
  | some p =>
    have hmem : c ∈ t.order p := h.mem_order_iff.2 (hparent.trans hp)
    refine .inr ?_
    dsimp only
    rw [renderOrder_eq (lt_size_of_mem_order hmem)]
    dsimp only
    cases hi : (t.order p).idxOf? c with
    | none => exact absurd hmem (List.idxOf?_eq_none_iff.1 hi)
    | some i =>
      refine ⟨⟨p, i⟩, ⟨i, rfl, ?_⟩, rfl⟩
      obtain ⟨hlt, hget, -⟩ := List.findIdx?_eq_some_iff_getElem.1 hi
      rw [List.getElem?_eq_getElem hlt, eq_of_beq hget]

end Nested

end Slots

/-! ### Fragments -/

/-- The fragment of a node: its text if it is replaced, and else an element with a slot for each
node inside. -/
def fragmentFor (t : NodeTree) (texts : SortedMap NodeId String) (i : NodeId) : Fragment :=
  match texts.get? i with
  | some s => .ofText s
  | none => .container i (t.order i).length

/-- Texts without slots, for nodes with nothing inside. -/
structure Textual (t : NodeTree) (texts : SortedMap NodeId String) : Prop where
  empty : ∀ i s, texts.get? i = some s → t.order i = []
  slots : ∀ i s, texts.get? i = some s → (Fragment.ofText s).slots = []

theorem mem_slots_container {p : NodeId} {n k : Nat} (hk : k < n) :
    (⟨p, k⟩ : Placeholder) ∈ (Fragment.container p n).slots := by
  rw [Fragment.container, if_neg (by omega), Fragment.slots, List.mem_filterMap]
  refine ⟨.slot ⟨p, k⟩, ?_, rfl⟩
  refine List.mem_cons_of_mem _ (List.mem_append_left _ (List.mem_map.2 ⟨k, ?_, rfl⟩))
  exact List.mem_range.2 hk

namespace Assembly

variable {t : NodeTree} {texts : SortedMap NodeId String} {done : List NodeId} {a a' a'' : Assembly}

/-- The node of a slot is known. -/
def Told (a : Assembly) (s : Placeholder) (c : NodeId) : Prop :=
  a.bindings.get? s = some c ∨ a.announced.get? s = some c ∨
    ∃ q, a.waiting.get? s.owner = some q ∧ (s, c) ∈ q

/-- What an assembly knows is right, after some nodes have got their fragments. -/
structure Sound (t : NodeTree) (texts : SortedMap NodeId String) (done : List NodeId)
    (a : Assembly) : Prop where
  fragments : ∀ i, a.fragment? i = if i ∈ done then some (fragmentFor t texts i) else none
  replaced : ∀ i ∈ a.replaced, texts.get? i ≠ none
  bindings : ∀ s c, a.bindings.get? s = some c → SlotFor t s c
  announced : ∀ s c, a.announced.get? s = some c → SlotFor t s c
  waiting : ∀ p q, a.waiting.get? p = some q → ∀ e ∈ q, e.1.owner = p ∧ SlotFor t e.1 e.2
  orders : ∀ p order, a.orders.get? p = some order → order.Sublist (t.order p)

namespace Sound

variable {s : Placeholder} {c : NodeId}

theorem hasSlot (h : Sound t texts done a) (htexts : Textual t texts) (hdone : s.owner ∈ done)
    (hs : SlotFor t s c) : a.hasSlot s = true := by
  rw [Assembly.hasSlot, h.fragments, if_pos hdone]
  have hnone : texts.get? s.owner = none := Option.eq_none_iff_forall_ne_some.2 fun text htext ↦ by
    have hmem := hs.mem
    rw [htexts.empty _ _ htext] at hmem
    exact absurd hmem List.not_mem_nil
  obtain ⟨k, hpos, hk⟩ := hs
  obtain ⟨hlt, -⟩ := List.getElem?_eq_some_iff.1 hk
  obtain ⟨p, i⟩ := s
  obtain rfl : i = k := hpos
  dsimp only at hnone hlt ⊢
  rw [fragmentFor, hnone, Fragment.containsSlot, List.contains_iff_mem]
  exact mem_slots_container hlt

end Sound

/-- What an operation keeps of what is known. -/
structure Progress (t : NodeTree) (texts : SortedMap NodeId String) (done : List NodeId)
    (a a' : Assembly) : Prop where
  sound : Sound t texts done a'
  bound : ∀ s c, a.bindings.get? s = some c → a'.bindings.get? s = some c
  told : ∀ s c, a.Told s c → a'.Told s c
  /-- No node waits for one that is placed. -/
  drained : ∀ p ∈ done, a.waiting.get? p = none → a'.waiting.get? p = none

namespace Progress

theorem refl (h : Sound t texts done a) : Progress t texts done a a :=
  ⟨h, fun _ _ h ↦ h, fun _ _ h ↦ h, fun _ _ h ↦ h⟩

theorem trans (h : Progress t texts done a a') (h' : Progress t texts done a' a'') :
    Progress t texts done a a'' :=
  ⟨h'.sound, fun s c hs ↦ h'.bound s c (h.bound s c hs), fun s c hs ↦ h'.told s c (h.told s c hs),
    fun p hp hw ↦ h'.drained p hp (h.drained p hp hw)⟩

end Progress

/-! ### Binding -/

/-- One more slot is written down with its node, which it may have been before. -/
theorem slotFor_insert {m : SortedMap Placeholder NodeId} {s : Placeholder} {c : NodeId}
    (hm : ∀ s c, m.get? s = some c → SlotFor t s c) (hs : SlotFor t s c) :
    (∀ s' c', (m.insert s c).get? s' = some c' → SlotFor t s' c') ∧
      ∀ s' c', m.get? s' = some c' → (m.insert s c).get? s' = some c' := by
  constructor
  · intro s' c' hget
    rw [SortedMap.get?_insert] at hget
    split at hget
    · rename_i heq
      rw [heq, ← Option.some.inj hget]
      exact hs
    · exact hm s' c' hget
  · intro s' c' hget
    rw [SortedMap.get?_insert]
    split
    · rename_i heq
      rw [heq] at hget
      rw [(hm s c' hget).unique hs]
    · exact hget

/-- **Slots are bound** to the nodes they are for, so none is bound anew to another node. -/
theorem exists_bindAll (hbindings : ∀ s c, a.bindings.get? s = some c → SlotFor t s c)
    {l : List (Placeholder × NodeId)} (hl : ∀ e ∈ l, SlotFor t e.1 e.2) :
    ∃ m, l.foldl (fun a e ↦ a.bind e.1 e.2) a = { a with bindings := m } ∧
      (∀ s c, m.get? s = some c → SlotFor t s c) ∧
      (∀ s c, a.bindings.get? s = some c → m.get? s = some c) ∧
      ∀ e ∈ l, m.get? e.1 = some e.2 := by
  induction l generalizing a with
  | nil => exact ⟨a.bindings, rfl, hbindings, fun _ _ h ↦ h, fun _ he ↦ absurd he List.not_mem_nil⟩
  | cons e r ih =>
    obtain ⟨hinsert, hstays⟩ := slotFor_insert hbindings (hl e List.mem_cons_self)
    obtain ⟨m, hfold, hsound, hkeep, hbound⟩ := ih (a := a.bind e.1 e.2) hinsert
      fun e' he' ↦ hl e' (List.mem_cons_of_mem _ he')
    refine ⟨m, by rw [List.foldl_cons, hfold]; rfl, hsound,
      fun s c hs ↦ hkeep s c (hstays s c hs), fun e' he' ↦ ?_⟩
    rcases List.mem_cons.1 he' with rfl | he'
    · exact hkeep _ _ ((SortedMap.get?_insert _ _ _ _).trans (if_pos rfl))
    · exact hbound e' he'

/-- More bindings that are right. -/
theorem Sound.progress_bindings (h : Sound t texts done a) {m : SortedMap Placeholder NodeId}
    (hm : ∀ s c, m.get? s = some c → SlotFor t s c)
    (hkeep : ∀ s c, a.bindings.get? s = some c → m.get? s = some c) :
    Progress t texts done a { a with bindings := m } where
  sound := ⟨h.fragments, h.replaced, hm, h.announced, h.waiting, h.orders⟩
  bound := hkeep
  told s c hs := hs.imp_left (hkeep s c)
  drained _ _ hw := hw

theorem progress_bindAll (h : Sound t texts done a) {l : List (Placeholder × NodeId)}
    (hl : ∀ e ∈ l, SlotFor t e.1 e.2) :
    Progress t texts done a (l.foldl (fun a e ↦ a.bind e.1 e.2) a) := by
  obtain ⟨m, hfold, hm, hkeep, -⟩ := exists_bindAll h.bindings hl
  rw [hfold]
  exact h.progress_bindings hm hkeep

theorem progress_bind (h : Sound t texts done a) {s : Placeholder} {c : NodeId}
    (hs : SlotFor t s c) : Progress t texts done a (a.bind s c) :=
  progress_bindAll h (l := [(s, c)]) fun _ he ↦ List.mem_singleton.1 he ▸ hs

/-! ### Announcing and waiting -/

/-- **The queue of one node is changed.** What waits in it is right, and what does not wait any more
is bound. -/
theorem Sound.progress_queue (h : Sound t texts done a) {m : SortedMap Placeholder NodeId}
    {owner : NodeId} {w : SortedMap NodeId (List (Placeholder × NodeId))}
    {queue : Option (List (Placeholder × NodeId))}
    (hm : ∀ s c, m.get? s = some c → SlotFor t s c)
    (hkeep : ∀ s c, a.bindings.get? s = some c → m.get? s = some c)
    (hget : ∀ p, w.get? p = if p = owner then queue else a.waiting.get? p)
    (hqueue : ∀ q, queue = some q → ∀ e ∈ q, e.1.owner = owner ∧ SlotFor t e.1 e.2)
    (hdone : owner ∈ done → queue = none)
    (htold : ∀ q, a.waiting.get? owner = some q → ∀ e ∈ q,
      m.get? e.1 = some e.2 ∨ ∃ q', queue = some q' ∧ e ∈ q') :
    Progress t texts done a { a with bindings := m, waiting := w } where
  sound := {
    fragments := h.fragments
    replaced := h.replaced
    bindings := hm
    announced := h.announced
    waiting := fun p q hq ↦ by
      rw [hget] at hq
      split at hq
      · rename_i hp
        rw [hp]
        exact hqueue q hq
      · exact h.waiting p q hq
    orders := h.orders }
  bound := hkeep
  told s c hs := by
    rcases hs with hb | hb | ⟨q, hq, hmem⟩
    · exact .inl (hkeep s c hb)
    · exact .inr (.inl hb)
    · by_cases howner : s.owner = owner
      · rcases htold q (howner ▸ hq) (s, c) hmem with hb | ⟨q', hq', hmem'⟩
        · exact .inl hb
        · exact .inr (.inr ⟨q', (hget _).trans ((if_pos howner).trans hq'), hmem'⟩)
      · exact .inr (.inr ⟨q, (hget _).trans ((if_neg howner).trans hq), hmem⟩)
  drained p hp hw := by
    rw [hget]
    split
    · rename_i howner
      exact hdone (howner ▸ hp)
    · exact hw

/-- **A node is filed** under its slot: bound if the owner is placed, and waiting if it is not. -/
theorem progress_commit (h : Sound t texts done a) (htexts : Textual t texts) {s : Placeholder}
    {c : NodeId} (hs : SlotFor t s c) :
    Progress t texts done a (a.commit s c) ∧ (a.commit s c).Told s c := by
  rw [commit]
  split
  · refine ⟨progress_bind h hs, .inl ?_⟩
    rw [bind, SortedMap.get?_insert, if_pos rfl]
  · rename_i hslot
    have hget : ∀ p, (a.waiting.insert s.owner (a.waiting.getD s.owner [] ++ [(s, c)])).get? p =
        if p = s.owner then some (a.waiting.getD s.owner [] ++ [(s, c)]) else a.waiting.get? p :=
      fun p ↦ SortedMap.get?_insert _ _ _ _
    have hself : (s, c) ∈ a.waiting.getD s.owner [] ++ [(s, c)] :=
      List.mem_append_right _ (List.mem_singleton_self _)
    refine ⟨h.progress_queue h.bindings (fun _ _ hb ↦ hb) hget (fun q hq e he ↦ ?_)
      (fun hdone ↦ absurd (h.hasSlot htexts hdone hs) hslot) (fun q hq e he ↦ ?_),
      .inr (.inr ⟨_, (hget _).trans (if_pos rfl), hself⟩)⟩
    · rw [← Option.some.inj hq] at he
      rcases List.mem_append.1 he with he | he
      · cases hw : a.waiting.get? s.owner with
        | none =>
          rw [SortedMap.getD, hw] at he
          exact absurd he List.not_mem_nil
        | some q' =>
          rw [SortedMap.getD, hw] at he
          exact h.waiting _ q' hw e he
      · rw [List.mem_singleton.1 he]
        exact ⟨rfl, hs⟩
    · refine .inr ⟨_, rfl, List.mem_append_left _ ?_⟩
      rw [SortedMap.getD, hq]
      exact he

/-- **The nodes that wait for a node are bound**, once it is placed. -/
theorem progress_drain (h : Sound t texts done a) (htexts : Textual t texts) (owner : NodeId) :
    Progress t texts done a (a.drain owner) ∧
      (owner ∈ done → (a.drain owner).waiting.get? owner = none) := by
  rw [drain]
  cases hw : a.waiting.get? owner with
  | none => exact ⟨.refl h, fun _ ↦ hw⟩
  | some queue =>
    have hqueue := h.waiting owner queue hw
    obtain ⟨m, hfold, hm, hkeep, hbound⟩ := exists_bindAll h.bindings
      (l := queue.filter fun e ↦ a.hasSlot e.1) fun e he ↦ (hqueue e (List.mem_filter.1 he).1).2
    dsimp only
    rw [hfold]
    -- those that no slot has been found for stay in the queue
    let rest := queue.filter fun e ↦ !a.hasSlot e.1
    have hget : ∀ p, (if rest.isEmpty then a.waiting.erase owner
        else a.waiting.insert owner rest).get? p =
          if p = owner then (if rest.isEmpty then none else some rest) else a.waiting.get? p := by
      intro p
      split
      · exact SortedMap.get?_erase _ _ _
      · exact SortedMap.get?_insert _ _ _ _
    have hdone : owner ∈ done → (if rest.isEmpty then none else some rest) = none := by
      intro hdone
      have hnil : rest = [] := List.filter_eq_nil_iff.2 fun e he ↦ by
        simp [h.hasSlot htexts ((hqueue e he).1 ▸ hdone) (hqueue e he).2]
      rw [hnil]
      rfl
    refine ⟨h.progress_queue hm hkeep hget (fun q hq e he ↦ ?_) hdone fun q hq e he ↦ ?_,
      fun h ↦ (hget owner).trans ((if_pos rfl).trans (hdone h))⟩
    · split at hq
      · exact absurd hq (by simp)
      · rw [← Option.some.inj hq] at he
        exact hqueue e (List.mem_filter.1 he).1
    · obtain rfl := Option.some.inj (hw.symm.trans hq)
      cases hslot : a.hasSlot e.1 with
      | true => exact .inl (hbound e (List.mem_filter.2 ⟨he, hslot⟩))
      | false =>
        have hmem : e ∈ rest := List.mem_filter.2 ⟨he, by simp [hslot]⟩
        refine .inr ⟨rest, if_neg fun hnil ↦ ?_, hmem⟩
        exact List.ne_nil_of_mem hmem (List.isEmpty_iff.1 hnil)

/-- **A node is announced in its slot**: for the end of the level, or at once if none is open. -/
theorem exists_announce (h : Sound t texts done a) (hnested : Nested t) (htexts : Textual t texts)
    {c : NodeId} (hc : c < t.size) :
    ∃ a', a.announce t c = (.ok (), a') ∧ Progress t texts done a a' ∧
      ∀ s, SlotFor t s c → a'.Told s c := by
  rw [announce]
  rcases hnested.slotOf_eq hc with ⟨hnone, hslot⟩ | ⟨s, hs, hslot⟩
  · rw [hslot]
    refine ⟨a, rfl, .refl h, fun s hs ↦ ?_⟩
    rw [hnested.mem_order_iff.1 hs.mem] at hnone
    exact absurd hnone (by simp)
  · rw [hslot]
    dsimp only
    split
    · obtain ⟨hannounced, hstays⟩ := slotFor_insert h.announced hs
      refine ⟨_, rfl, ⟨⟨h.fragments, h.replaced, h.bindings, hannounced, h.waiting, h.orders⟩,
        fun _ _ hb ↦ hb, fun s' c' ↦ .imp_right (.imp_left (hstays s' c')), fun _ _ hw ↦ hw⟩,
        fun s' hs' ↦ ?_⟩
      obtain rfl := hnested.slot_unique hs hs'
      exact .inr (.inl ((SortedMap.get?_insert _ _ _ _).trans (if_pos rfl)))
    · obtain ⟨hp, htold⟩ := progress_commit h htexts hs
      refine ⟨_, rfl, hp, fun s' hs' ↦ ?_⟩
      obtain rfl := hnested.slot_unique hs hs'
      exact htold

theorem exists_settle (h : Sound t texts done a) (hnested : Nested t) (htexts : Textual t texts)
    {c : NodeId} (hc : c < t.size) (hdone : c ∈ done) :
    ∃ a', a.settle t c = (.ok (), a') ∧ Progress t texts done a a' ∧
      (∀ s, SlotFor t s c → a'.Told s c) ∧ a'.waiting.get? c = none := by
  obtain ⟨a₁, hok, hp, htold⟩ := exists_announce h hnested htexts hc
  obtain ⟨hp', hwaiting⟩ := progress_drain hp.sound htexts c
  exact ⟨a₁.drain c, by rw [settle, hok], hp.trans hp', fun s hs ↦ hp'.told s c (htold s hs),
    hwaiting hdone⟩

/-! ### Fragments -/

/-- **The leaves inside a node are bound** when it is placed. -/
theorem exists_bindLeaves (h : Sound t texts done a) (hnested : Nested t) (owner : NodeId)
    {l : List NodeId} {i : Nat} (hl : (t.order owner).drop i = l) :
    ∃ a', bindLeaves t owner a i l = (.ok (), a') ∧ Progress t texts done a a' ∧
      ∀ (k : Nat) c, i ≤ k → (t.order owner)[k]? = some c → t.order c = [] →
        texts.get? c = none → a'.bindings.get? ⟨owner, k⟩ = some c := by
  induction l generalizing a i with
  | nil =>
    refine ⟨a, rfl, .refl h, fun k c hk hc ↦ ?_⟩
    obtain ⟨hlt, -⟩ := List.getElem?_eq_some_iff.1 hc
    have hle := List.drop_eq_nil_iff.1 hl
    omega
  | cons child r ih =>
    have hchild : (t.order owner)[i]? = some child := by
      rw [← List.head?_drop, hl]
      rfl
    have hslot : SlotFor t ⟨owner, i⟩ child := ⟨i, rfl, hchild⟩
    have hlt : child < t.size := lt_size_of_renderParent? (hnested.mem_order_iff.1 hslot.mem)
    have hstep : ∃ a₁, (if (t.order child).isEmpty && !a.replaced.contains child then
          a.bind ⟨owner, i⟩ child else a) = a₁ ∧ Progress t texts done a a₁ ∧
        (t.order child = [] → texts.get? child = none →
          a₁.bindings.get? ⟨owner, i⟩ = some child) := by
      refine ⟨_, rfl, ?_, fun hnil hnone ↦ ?_⟩
      · split
        · exact progress_bind h hslot
        · exact .refl h
      · have hnot : a.replaced.contains child = false := by
          simpa using fun hmem ↦ h.replaced child hmem hnone
        rw [hnil, hnot, if_pos (by rfl)]
        exact (SortedMap.get?_insert _ _ _ _).trans (if_pos rfl)
    obtain ⟨a₁, heq, hp, hbound⟩ := hstep
    obtain ⟨a', hok, hp', hleaves⟩ := ih hp.sound (i := i + 1) (by rw [← List.tail_drop, hl]; rfl)
    refine ⟨a', ?_, hp.trans hp', fun k c hk hc hnil hnone ↦ ?_⟩
    · rw [bindLeaves, renderOrder_eq hlt]
      dsimp only
      rw [heq]
      exact hok
    · rcases Nat.eq_or_lt_of_le hk with rfl | hk
      · obtain rfl := Option.some.inj (hchild.symm.trans hc)
        exact hp'.bound _ _ (hbound hnil hnone)
      · exact hleaves k c hk hc hnil hnone

/-- A node gets its fragment. -/
theorem Sound.insert (h : Sound t texts done a) {i : NodeId} {f : Fragment}
    (hf : f = fragmentFor t texts i) (replaced : List NodeId)
    (hreplaced : ∀ j ∈ replaced, texts.get? j ≠ none) :
    Sound t texts (i :: done)
      { a with fragments := a.fragments.insert i f, replaced := replaced } where
  fragments j := by
    rw [fragment?, SortedMap.get?_insert]
    by_cases hj : j = i
    · rw [if_pos hj, hj, if_pos List.mem_cons_self, hf]
    · rw [if_neg hj]
      refine (h.fragments j).trans ?_
      simp [hj]
  replaced := hreplaced
  bindings := h.bindings
  announced := h.announced
  waiting := h.waiting
  orders := h.orders

end Assembly

end ViewCompiler
