import ViewCompiler.Convert.Targets
import ViewCompiler.Proofs.Template.Placing

/-!
# Levels

`Assembly.Assembling` is what holds between two nodes that get their fragments: every placed node is
filed under its slot, the leaves inside a placed node are bound, and no node waits for a placed one.
It holds after each node (`Assembling.exists_placeNode`), at the end of each level
(`Assembling.finishLevel`) and so after all levels, whatever the levels are
(`Assembling.exists_assembleLevels`).

A saved order, of all nodes inside another one or of some, is carried out by binding slots to the
nodes that they are bound to already, since the slots of a node are numbered in the order of output
(`Assembly.progress_applyOrder`). It is rejected only if a slot of its owner is bound to nothing
when the owner has its fragment. On levels that go from the inside to the outside (`InsideOut`) this
does not happen, so nothing is reported.
-/

namespace ViewCompiler

open NodeTree

namespace Assembly

variable {t : NodeTree} {texts : SortedMap NodeId String} {done : List NodeId} {a a' : Assembly}

/-- What holds after some nodes have got their fragments. -/
structure Assembling (t : NodeTree) (texts : SortedMap NodeId String) (done : List NodeId)
    (a : Assembly) : Prop where
  sound : Sound t texts done a
  told : ∀ c ∈ done, ∀ s, SlotFor t s c → a.Told s c
  leaves : ∀ s c, s.owner ∈ done → SlotFor t s c → t.order c = [] → texts.get? c = none →
    a.bindings.get? s = some c
  drained : ∀ p ∈ done, a.waiting.get? p = none

namespace Assembling

theorem progress (h : Assembling t texts done a) (hp : Progress t texts done a a') :
    Assembling t texts done a' where
  sound := hp.sound
  told c hc s hs := hp.told s c (h.told c hc s hs)
  leaves s c hc hs hnil hnone := hp.bound s c (h.leaves s c hc hs hnil hnone)
  drained p hp' := hp.drained p hp' (h.drained p hp')

theorem beginLevel (h : Assembling t texts done a) : Assembling t texts done a.beginLevel :=
  ⟨⟨h.sound.fragments, h.sound.replaced, h.sound.bindings, h.sound.announced, h.sound.waiting,
    h.sound.orders⟩, h.told, h.leaves, h.drained⟩

/-- One more node, which has got its fragment and is announced. -/
theorem cons (h : Assembling t texts done a) {i : NodeId} {fragments : SortedMap NodeId Fragment}
    {replaced : List NodeId}
    (hp : Progress t texts (i :: done) { a with fragments := fragments, replaced := replaced } a')
    (htold : ∀ s, SlotFor t s i → a'.Told s i)
    (hleaves : ∀ s c, s.owner = i → SlotFor t s c → t.order c = [] → texts.get? c = none →
      a'.bindings.get? s = some c)
    (hdrained : a'.waiting.get? i = none) : Assembling t texts (i :: done) a' where
  sound := hp.sound
  told c hc s hs := by
    rcases List.mem_cons.1 hc with rfl | hc
    · exact htold s hs
    · exact hp.told s c (h.told c hc s hs)
  leaves s c hc hs hnil hnone := by
    rcases List.mem_cons.1 hc with howner | hc
    · exact hleaves s c howner hs hnil hnone
    · exact hp.bound s c (h.leaves s c hc hs hnil hnone)
  drained p hp' := by
    rcases List.mem_cons.1 hp' with rfl | hmem
    · exact hdrained
    · exact hp.drained p hp' (h.drained p hmem)

section

variable (hnested : Nested t) (htexts : Textual t texts)

include hnested htexts

theorem exists_replace (h : Assembling t texts done a) {i : NodeId} {text : String}
    (hi : i < t.size) (htext : texts.get? i = some text) :
    ∃ a', a.replace t i text = (.ok (), a') ∧ Assembling t texts (i :: done) a' := by
  have hfragment : Fragment.ofText text = fragmentFor t texts i := by rw [fragmentFor, htext]
  have hsound := h.sound.insert hfragment
    (if a.replaced.contains i then a.replaced else i :: a.replaced) fun j hj ↦ by
      split at hj
      · exact h.sound.replaced j hj
      · rcases List.mem_cons.1 hj with rfl | hj
        · rw [htext]
          simp
        · exact h.sound.replaced j hj
  obtain ⟨a', hok, hp, htold, hdrained⟩ :=
    exists_settle hsound hnested htexts hi List.mem_cons_self
  refine ⟨a', hok, h.cons hp htold (fun s c howner hs ↦ ?_) hdrained⟩
  have hmem := hs.mem
  rw [howner, htexts.empty i text htext] at hmem
  exact absurd hmem List.not_mem_nil

theorem exists_place (h : Assembling t texts done a) {i : NodeId} (hi : i < t.size)
    (hnone : texts.get? i = none) :
    ∃ a', a.place t i = (.ok (), a') ∧ Assembling t texts (i :: done) a' := by
  have hfragment : Fragment.container i (t.order i).length = fragmentFor t texts i := by
    rw [fragmentFor, hnone]
  have hnot : ¬a.replaced.contains i = true := fun hmem ↦
    h.sound.replaced i (List.contains_iff_mem.1 hmem) hnone
  have hsound := h.sound.insert hfragment a.replaced h.sound.replaced
  obtain ⟨a₁, hbind, hp, hleaves⟩ := exists_bindLeaves hsound hnested i (i := 0) List.drop_zero
  obtain ⟨a', hsettle, hp', htold, hdrained⟩ := exists_settle hp.sound hnested htexts hi
    List.mem_cons_self
  refine ⟨a', ?_, h.cons (hp.trans hp') htold (fun s c howner hs hnil hplain ↦ ?_) hdrained⟩
  · rw [place, if_neg hnot, renderOrder_eq hi]
    dsimp only
    rw [hbind]
    exact hsettle
  · obtain ⟨k, hpos, hk⟩ := hs
    obtain ⟨p, pos⟩ := s
    obtain rfl : p = i := howner
    obtain rfl : pos = k := hpos
    exact hp'.bound _ _ (hleaves k c (Nat.zero_le k) hk hnil hplain)

/-- **One node.** A node that is a leaf gets no fragment. -/
theorem exists_placeNode (h : Assembling t texts done a) {i : NodeId} (hi : i < t.size) :
    ∃ a' done', Decided.placeNode t texts a i = .ok a' ∧ Assembling t texts done' a' ∧
      done ⊆ done' ∧ done' ⊆ i :: done ∧
      (texts.get? i ≠ none ∨ t.order i ≠ [] → i ∈ done') := by
  rw [Decided.placeNode]
  cases htext : texts.get? i with
  | some text =>
    obtain ⟨a', hok, ha'⟩ := h.exists_replace hnested htexts hi htext
    refine ⟨a', i :: done, ?_, ha', List.subset_cons_self _ _, List.Subset.refl _,
      fun _ ↦ List.mem_cons_self⟩
    simp only [hok]
  | none =>
    dsimp only
    rw [renderOrder_eq hi]
    cases horder : t.order i with
    | nil =>
      exact ⟨a, done, rfl, h, List.Subset.refl _, List.subset_cons_self _ _, fun hi ↦ by simp at hi⟩
    | cons c r =>
      obtain ⟨a', hok, ha'⟩ := h.exists_place hnested htexts hi htext
      refine ⟨a', i :: done, ?_, ha', List.subset_cons_self _ _, List.Subset.refl _,
        fun _ ↦ List.mem_cons_self⟩
      simp only [hok]

end

end Assembling

/-! ### The end of a level -/

theorem slotFor_of_slotsByNode (h : Sound t texts done a) {owner c : NodeId} {s : Placeholder}
    (hs : (a.slotsByNode owner).get? c = some s) : s.owner = owner ∧ SlotFor t s c := by
  rcases SortedMap.mem_of_get?_insertAll hs with hmem | hempty
  · obtain ⟨e, he, heq⟩ := List.mem_map.1 hmem
    obtain ⟨hentry, howner⟩ := List.mem_filter.1 he
    obtain ⟨rfl, rfl⟩ := Prod.mk.inj heq
    exact ⟨of_decide_eq_true howner, h.bindings _ _ (SortedMap.mem_entries_iff.1 hentry)⟩
  · exact absurd hempty (by simp)

/-- The slots of some nodes inside another one, if those are in the order of output, are so too. -/
theorem pairwise_slots {owner : NodeId} {order : List NodeId} (hnodup : (t.order owner).Nodup)
    (horder : order.Sublist (t.order owner)) :
    (order.map fun c ↦ (⟨owner, (t.order owner).idxOf c⟩ : Placeholder)).Pairwise
      fun p q ↦ (compare p q).isLE = true := by
  have hall : (t.order owner).Pairwise fun b c ↦
      (t.order owner).idxOf b < (t.order owner).idxOf c := by
    refine List.pairwise_iff_getElem.2 fun i j hi hj hij ↦ ?_
    rwa [hnodup.idxOf_getElem i hi, hnodup.idxOf_getElem j hj]
  refine List.pairwise_map.2 ((hall.sublist horder).imp fun {b c} hbc ↦ ?_)
  change ((compare owner owner).then
    (compare ((t.order owner).idxOf b : Int) ((t.order owner).idxOf c))).isLE = true
  have hself : compare owner owner = .eq := Nat.compare_eq_eq.2 rfl
  rw [hself, Ordering.eq_then, Int.isLE_compare]
  omega

/-- **The order of output binds every slot to the node it is for.** -/
theorem progress_applyOrder (h : Sound t texts done a) (hnested : Nested t) {owner : NodeId}
    {order : List NodeId} (horder : order.Sublist (t.order owner))
    (hok : a.applyOrder owner order = .ok a') :
    Progress t texts done a a' ∧ a'.announced = a.announced := by
  let slot : NodeId → Placeholder := fun c ↦ ⟨owner, (t.order owner).idxOf c⟩
  have hslot : ∀ c ∈ order, SlotFor t (slot c) c := fun c hc ↦
    ⟨_, rfl, List.getElem?_idxOf (horder.subset hc)⟩
  rw [applyOrder] at hok
  dsimp only at hok
  split at hok
  · rename_i hmissing
    have hget : ∀ c ∈ order, (a.slotsByNode owner).get? c = (some ∘ slot) c := fun c hc ↦ by
      have hnot := List.filter_eq_nil_iff.1 (List.isEmpty_iff.1 hmissing) c hc
      have hne : (a.slotsByNode owner).get? c ≠ none := by
        simpa [SortedMap.contains] using hnot
      obtain ⟨s, hs⟩ := Option.ne_none_iff_exists'.1 hne
      rw [hs, hnested.slot_unique (slotFor_of_slotsByNode h hs).2 (hslot c hc)]
      rfl
    rw [List.filterMap_congr hget, List.filterMap_eq_map,
      stableSort_eq_self (pairwise_slots (hnested.nodup_order owner) horder),
      ← List.map_prod_right_eq_zip] at hok
    obtain rfl := Except.ok.inj hok
    have hfor : ∀ e ∈ order.map fun c ↦ (slot c, c), SlotFor t e.1 e.2 := fun e he ↦ by
      obtain ⟨c, hc, rfl⟩ := List.mem_map.1 he
      exact hslot c hc
    obtain ⟨m, hfold, -, -, -⟩ := exists_bindAll h.bindings hfor
    exact ⟨progress_bindAll h hfor, by rw [hfold]⟩
  · exact absurd hok (by simp)

/-- A saved order is forgotten, whether it could be carried out or not. -/
theorem progress_carryOut (hnested : Nested t) {s : Assembly × List TemplateError}
    (h : Sound t texts done s.1) {e : NodeId × List NodeId} (he : e.2.Sublist (t.order e.1)) :
    Progress t texts done s.1 (carryOut s e).1 ∧ (carryOut s e).1.announced = s.1.announced := by
  have herased : Progress t texts done s.1 { s.1 with orders := s.1.orders.erase e.1 } := by
    refine ⟨⟨h.fragments, h.replaced, h.bindings, h.announced, h.waiting, fun p order hp ↦ ?_⟩,
      fun _ _ hb ↦ hb, fun _ _ hs ↦ hs, fun _ _ hw ↦ hw⟩
    rw [SortedMap.get?_erase] at hp
    split at hp
    · exact absurd hp (by simp)
    · exact h.orders p order hp
  rw [carryOut]
  dsimp only
  split
  · rename_i a' hok
    obtain ⟨hp, hannounced⟩ := progress_applyOrder herased.sound hnested he hok
    exact ⟨herased.trans hp, hannounced⟩
  · exact ⟨herased, rfl⟩

theorem progress_carryOutAll (hnested : Nested t) {l : List (NodeId × List NodeId)}
    (hl : ∀ e ∈ l, e.2.Sublist (t.order e.1)) {s : Assembly × List TemplateError}
    (h : Sound t texts done s.1) :
    Progress t texts done s.1 (l.foldl carryOut s).1 ∧
      (l.foldl carryOut s).1.announced = s.1.announced := by
  induction l generalizing s with
  | nil => exact ⟨.refl h, rfl⟩
  | cons e r ih =>
    obtain ⟨hp, hannounced⟩ := progress_carryOut hnested h (hl e List.mem_cons_self)
    obtain ⟨hp', hannounced'⟩ := ih (fun e' he' ↦ hl e' (List.mem_cons_of_mem _ he')) hp.sound
    exact ⟨hp.trans hp', hannounced'.trans hannounced⟩

/-- **An order is carried out** if all slots of its owner are bound. -/
theorem exists_applyOrder {owner : NodeId} {order : List NodeId}
    (horder : order.Sublist (t.order owner))
    (hbound : ∀ s c, s.owner = owner → SlotFor t s c → a.bindings.get? s = some c) :
    ∃ a', a.applyOrder owner order = .ok a' := by
  have hmissing : (order.filter fun c ↦ !(a.slotsByNode owner).contains c).isEmpty = true := by
    refine List.isEmpty_iff.2 (List.filter_eq_nil_iff.2 fun c hc ↦ ?_)
    obtain ⟨k, hslot⟩ := exists_slotFor (horder.subset hc)
    have hentry : ((⟨owner, k⟩ : Placeholder), c) ∈
        a.bindings.entries.filter fun e ↦ e.1.owner = owner :=
      List.mem_filter.2 ⟨SortedMap.mem_entries_iff.2 (hbound _ c rfl hslot), by simp⟩
    have hne : (a.slotsByNode owner).get? c ≠ none :=
      SortedMap.get?_insertAll_ne_none (.inl (List.mem_map.2 ⟨_, List.mem_map_of_mem hentry, rfl⟩))
    simpa [SortedMap.contains, Option.isSome_iff_ne_none] using hne
  rw [applyOrder]
  dsimp only
  rw [if_pos hmissing]
  exact ⟨_, rfl⟩

/-- No order is rejected while the slots of its owner are bound. -/
theorem rejected_carryOutAll (hnested : Nested t) {l : List (NodeId × List NodeId)}
    (hl : ∀ e ∈ l, e.2.Sublist (t.order e.1)) {s : Assembly × List TemplateError}
    (h : Sound t texts done s.1) (hbound : ∀ e ∈ l, ∀ p c, p.owner = e.1 → SlotFor t p c →
      s.1.bindings.get? p = some c) : (l.foldl carryOut s).2 = s.2 := by
  induction l generalizing s with
  | nil => rfl
  | cons e r ih =>
    have hfirst := hl e List.mem_cons_self
    obtain ⟨a₁, hok⟩ := exists_applyOrder (a := { s.1 with orders := s.1.orders.erase e.1 }) hfirst
      (hbound e List.mem_cons_self)
    have hstep : carryOut s e = (a₁, s.2) := by
      rw [carryOut]
      dsimp only
      rw [hok]
    have hp := (progress_carryOut hnested h hfirst).1
    rw [hstep] at hp
    rw [List.foldl_cons, hstep]
    exact ih (fun e' he' ↦ hl e' (List.mem_cons_of_mem _ he')) hp.sound
      fun e' he' p c howner hslot ↦
        hp.bound p c (hbound e' (List.mem_cons_of_mem _ he') p c howner hslot)

theorem announced_commit (a : Assembly) (s : Placeholder) (c : NodeId) :
    (a.commit s c).announced = a.announced := by
  rw [commit]
  split <;> rfl

/-- **What was announced is filed.** -/
theorem progress_commitAll (htexts : Textual t texts) {l : List (Placeholder × NodeId)}
    (hl : ∀ e ∈ l, SlotFor t e.1 e.2) (h : Sound t texts done a) :
    Progress t texts done a (l.foldl (fun a e ↦ a.commit e.1 e.2) a) ∧
      (l.foldl (fun a e ↦ a.commit e.1 e.2) a).announced = a.announced ∧
      ∀ e ∈ l, (l.foldl (fun a e ↦ a.commit e.1 e.2) a).Told e.1 e.2 := by
  induction l generalizing a with
  | nil => exact ⟨.refl h, rfl, fun _ he ↦ absurd he List.not_mem_nil⟩
  | cons e r ih =>
    obtain ⟨hp, htold⟩ := progress_commit h htexts (hl e List.mem_cons_self)
    obtain ⟨hp', hannounced, htold'⟩ :=
      ih (fun e' he' ↦ hl e' (List.mem_cons_of_mem _ he')) hp.sound
    refine ⟨hp.trans hp', hannounced.trans (announced_commit a e.1 e.2), fun e' he' ↦ ?_⟩
    rcases List.mem_cons.1 he' with rfl | he'
    · exact hp'.told _ _ htold
    · exact htold' e' he'

/-- What was announced on a level is filed at its end. -/
theorem Assembling.commitAll (h : Assembling t texts done a) (htexts : Textual t texts)
    (ha : a' = a.announced.entries.foldl (fun a e ↦ a.commit e.1 e.2)
      { a with announced := .empty }) :
    Assembling t texts done a' ∧ a'.announced = .empty := by
  have hentries : ∀ e ∈ a.announced.entries, SlotFor t e.1 e.2 := fun e he ↦
    h.sound.announced _ _ (SortedMap.mem_entries_iff.1 he)
  have hsound : Sound t texts done { a with announced := .empty } :=
    ⟨h.sound.fragments, h.sound.replaced, h.sound.bindings, fun s c hs ↦ absurd hs (by simp),
      h.sound.waiting, h.sound.orders⟩
  obtain ⟨hp, hannounced, htold⟩ := progress_commitAll htexts hentries hsound
  rw [← ha] at hp hannounced htold
  refine ⟨⟨hp.sound, fun c hc s hs ↦ ?_,
    fun s c hc hs hnil hnone ↦ hp.bound s c (h.leaves s c hc hs hnil hnone),
    fun p hp' ↦ hp.drained p hp' (h.drained p hp')⟩, hannounced⟩
  rcases h.told c hc s hs with hb | hannounce | hw
  · exact hp.told s c (.inl hb)
  · exact htold (s, c) (SortedMap.mem_entries_iff.2 hannounce)
  · exact hp.told s c (.inr (.inr hw))

/-- **A slot is bound** as soon as nothing is announced, if its owner has its fragment and the node
that it is for has one too or is a leaf. -/
theorem Assembling.bound (h : Assembling t texts done a) (hannounced : a.announced = .empty)
    {s : Placeholder} {c : NodeId} (howner : s.owner ∈ done) (hslot : SlotFor t s c)
    (hinner : texts.get? c ≠ none ∨ t.order c ≠ [] → c ∈ done) : a.bindings.get? s = some c := by
  by_cases hleaf : t.order c = [] ∧ texts.get? c = none
  · exact h.leaves s c howner hslot hleaf.1 hleaf.2
  · have hc : c ∈ done := hinner <| by
      by_cases hnil : t.order c = []
      · exact .inl fun hnone ↦ hleaf ⟨hnil, hnone⟩
      · exact .inr hnil
    rcases h.told c hc s hslot with hb | hb | ⟨q, hq, -⟩
    · exact hb
    · rw [hannounced] at hb
      exact absurd hb (by simp)
    · rw [h.drained _ howner] at hq
      exact absurd hq (by simp)

/-- What is inside the nodes that have their fragments has its own or is a leaf. -/
def Closed (t : NodeTree) (texts : SortedMap NodeId String) (done : List NodeId) : Prop :=
  ∀ p ∈ done, ∀ c ∈ t.order p, texts.get? c ≠ none ∨ t.order c ≠ [] → c ∈ done

/-- **The end of a level** leaves nothing announced. If what is inside comes before what it renders
in, no saved order is rejected. -/
theorem Assembling.finishLevel (h : Assembling t texts done a) (hnested : Nested t)
    (htexts : Textual t texts) :
    Assembling t texts done a.finishLevel.2 ∧ a.finishLevel.2.announced = .empty ∧
      (Closed t texts done → a.finishLevel.1 = []) := by
  rw [Assembly.finishLevel]
  dsimp only
  obtain ⟨hcommitted, hannounced⟩ := h.commitAll htexts rfl
  generalize a.announced.entries.foldl (fun a e ↦ a.commit e.1 e.2)
    { a with announced := .empty } = committed at hcommitted hannounced
  have hready : ∀ e ∈ committed.orders.entries.filter fun e ↦ committed.isPlaced e.1,
      e.2.Sublist (t.order e.1) ∧ e.1 ∈ done := fun e he ↦ by
    obtain ⟨hentry, hplaced⟩ := List.mem_filter.1 he
    refine ⟨hcommitted.sound.orders _ _ (SortedMap.mem_entries_iff.1 hentry), ?_⟩
    have hfragment := hcommitted.sound.fragments e.1
    by_contra hnot
    rw [if_neg hnot, fragment?] at hfragment
    rw [isPlaced, SortedMap.contains, hfragment] at hplaced
    exact absurd hplaced (by simp)
  obtain ⟨hp, hannounced'⟩ := progress_carryOutAll hnested (s := (committed, []))
    (fun e he ↦ (hready e he).1) hcommitted.sound
  have hall := hcommitted.progress hp
  refine ⟨⟨⟨hall.sound.fragments, hall.sound.replaced, hall.sound.bindings, hall.sound.announced,
    hall.sound.waiting, hall.sound.orders⟩, hall.told, hall.leaves, hall.drained⟩,
    hannounced'.trans hannounced, fun hclosed ↦ ?_⟩
  refine rejected_carryOutAll hnested (fun e he ↦ (hready e he).1) hcommitted.sound
    fun e he s c howner hslot ↦ ?_
  have hmem : s.owner ∈ done := howner ▸ (hready e he).2
  exact hcommitted.bound hannounced hmem hslot (hclosed _ hmem c hslot.mem)

/-! ### All levels -/

/-- Levels on which whatever is inside a node, and is no leaf, comes before it: on an earlier level,
if it has not been placed before all of them. -/
structure InsideOut (t : NodeTree) (texts : SortedMap NodeId String) (done : List NodeId)
    (levels : List (List NodeId)) : Prop where
  known : ∀ level ∈ levels, ∀ p ∈ level, ∀ c ∈ t.order p, texts.get? c ≠ none ∨ t.order c ≠ [] →
    c ∈ done ∨ ∃ level' ∈ levels, c ∈ level'
  apart : ∀ level ∈ levels, ∀ p ∈ level, ∀ c ∈ t.order p, c ∉ level
  later : levels.Pairwise fun level level' ↦ ∀ p ∈ level, ∀ c ∈ t.order p, c ∉ level'

namespace InsideOut

variable {level : List NodeId} {r : List (List NodeId)}
  (h : InsideOut t texts done (level :: r))

include h

theorem first : ∀ p ∈ level, ∀ c ∈ t.order p, texts.get? c ≠ none ∨ t.order c ≠ [] → c ∈ done := by
  intro p hp c hc hinner
  refine (h.known level List.mem_cons_self p hp c hc hinner).resolve_right ?_
  rintro ⟨level', hlevel, hmem⟩
  rcases List.mem_cons.1 hlevel with rfl | hlevel
  · exact h.apart _ List.mem_cons_self p hp c hc hmem
  · exact (List.pairwise_cons.1 h.later).1 level' hlevel p hp c hc hmem

theorem tail {done' : List NodeId} (hsub : done ⊆ done')
    (hplaced : ∀ i ∈ level, texts.get? i ≠ none ∨ t.order i ≠ [] → i ∈ done') :
    InsideOut t texts done' r where
  known level' hlevel p hp c hc hinner := by
    rcases h.known level' (List.mem_cons_of_mem _ hlevel) p hp c hc hinner with
      hc | ⟨level'', hlevel, hmem⟩
    · exact .inl (hsub hc)
    · rcases List.mem_cons.1 hlevel with rfl | hlevel
      · exact .inl (hplaced c hmem hinner)
      · exact .inr ⟨level'', hlevel, hmem⟩
  apart level' hlevel := h.apart level' (List.mem_cons_of_mem _ hlevel)
  later := (List.pairwise_cons.1 h.later).2

end InsideOut

theorem tree_reportRejected (l : List TemplateError) (c : Context) :
    (l.foldl Context.reportRejected c).tree = c.tree := by
  induction l generalizing c with
  | nil => rfl
  | cons e r ih =>
    rw [List.foldl_cons, ih]
    cases e <;> rfl

namespace Assembling

section

variable (hnested : Nested t) (htexts : Textual t texts)

include hnested htexts

theorem exists_placeNodes (h : Assembling t texts done a) {l : List NodeId}
    (hl : ∀ i ∈ l, i < t.size) :
    ∃ a' done', l.foldlM (Decided.placeNode t texts) a = .ok a' ∧ Assembling t texts done' a' ∧
      done ⊆ done' ∧ (∀ i ∈ done', i ∈ l ∨ i ∈ done) ∧
      ∀ i ∈ l, texts.get? i ≠ none ∨ t.order i ≠ [] → i ∈ done' := by
  induction l generalizing a done with
  | nil =>
    exact ⟨a, done, rfl, h, List.Subset.refl _, fun _ hi ↦ .inr hi,
      fun _ hi ↦ absurd hi List.not_mem_nil⟩
  | cons i r ih =>
    obtain ⟨a₁, done₁, hok, h₁, hsub, honly, hplaced⟩ :=
      h.exists_placeNode hnested htexts (hl i List.mem_cons_self)
    obtain ⟨a', done', hrest, h', hsub', honly', hplaced'⟩ :=
      ih h₁ fun j hj ↦ hl j (List.mem_cons_of_mem _ hj)
    refine ⟨a', done', ?_, h', List.Subset.trans hsub hsub', fun j hj ↦ ?_, fun j hj hinner ↦ ?_⟩
    · rw [List.foldlM_cons, hok]
      exact hrest
    · rcases honly' j hj with hj | hj
      · exact .inl (List.mem_cons_of_mem _ hj)
      · rcases List.mem_cons.1 (honly hj) with rfl | hj
        · exact .inl List.mem_cons_self
        · exact .inr hj
    · rcases List.mem_cons.1 hj with rfl | hj
      · exact hsub' (hplaced hinner)
      · exact hplaced' j hj hinner

/-- **One level.** It reports nothing if what is inside its nodes comes before. -/
theorem exists_assembleLevel (h : Assembling t texts done a) {c : Context} (hc : c.tree = t)
    {level : List NodeId} (hl : ∀ i ∈ level, i < t.size) :
    ∃ a' c' done', Decided.assembleLevel texts (a, c) level = .ok (a', c') ∧
      Assembling t texts done' a' ∧ a'.announced = .empty ∧ c'.tree = c.tree ∧
      done ⊆ done' ∧ (∀ i ∈ done', i ∈ level ∨ i ∈ done) ∧
      (∀ i ∈ level, texts.get? i ≠ none ∨ t.order i ≠ [] → i ∈ done') ∧
      (Closed t texts done' → c' = c) := by
  obtain ⟨a₁, done', hok, h₁, hsub, honly, hplaced⟩ :=
    h.beginLevel.exists_placeNodes hnested htexts hl
  obtain ⟨hfinish, hannounced, hrejected⟩ := h₁.finishLevel hnested htexts
  refine ⟨a₁.finishLevel.2, a₁.finishLevel.1.foldl Context.reportRejected c, done', ?_, hfinish,
    hannounced, tree_reportRejected _ c, hsub, honly, hplaced,
    fun hclosed ↦ by rw [hrejected hclosed, List.foldl_nil]⟩
  rw [Decided.assembleLevel, hc]
  simp only [hok]
  rfl

/-- **All levels.** They report nothing if they go from the inside to the outside. -/
theorem exists_assembleLevels (h : Assembling t texts done a) (hannounced : a.announced = .empty)
    {c : Context} (hc : c.tree = t) {levels : List (List NodeId)}
    (hl : ∀ level ∈ levels, ∀ i ∈ level, i < t.size) :
    ∃ a' c' done', levels.foldlM (Decided.assembleLevel texts) (a, c) = .ok (a', c') ∧
      Assembling t texts done' a' ∧ a'.announced = .empty ∧ done ⊆ done' ∧
      (∀ level ∈ levels, ∀ i ∈ level, texts.get? i ≠ none ∨ t.order i ≠ [] → i ∈ done') ∧
      (Closed t texts done → InsideOut t texts done levels → c' = c) := by
  induction levels generalizing a c done with
  | nil =>
    exact ⟨a, c, done, rfl, h, hannounced, List.Subset.refl _,
      fun _ hlevel ↦ absurd hlevel List.not_mem_nil, fun _ _ ↦ rfl⟩
  | cons level r ih =>
    obtain ⟨a₁, c₁, done₁, hok, h₁, hannounced₁, htree, hsub, honly, hplaced, hsilent⟩ :=
      h.exists_assembleLevel hnested htexts hc (hl level List.mem_cons_self)
    obtain ⟨a', c', done', hrest, h', hannounced', hsub', hplaced', hsilent'⟩ := ih h₁
      hannounced₁ (htree.trans hc) fun level hlevel ↦ hl level (List.mem_cons_of_mem _ hlevel)
    refine ⟨a', c', done', ?_, h', hannounced', List.Subset.trans hsub hsub',
      fun level' hlevel i hi hinner ↦ ?_, fun hclosed hout ↦ ?_⟩
    · rw [List.foldlM_cons, hok]
      exact hrest
    · rcases List.mem_cons.1 hlevel with rfl | hlevel
      · exact hsub' (hplaced i hi hinner)
      · exact hplaced' level' hlevel i hi hinner
    · have hclosed₁ : Closed t texts done₁ := fun p hp d hd hinner ↦ by
        rcases honly p hp with hp | hp
        · exact hsub (hout.first p hp d hd hinner)
        · exact hsub (hclosed p hp d hd hinner)
      exact (hsilent' hclosed₁ (hout.tail hsub hplaced)).trans (hsilent hclosed₁)

end

end Assembling

end Assembly

end ViewCompiler
