import ViewCompiler.Proofs.Layout.Output
import ViewCompiler.Proofs.Template.Calls
import ViewCompiler.Proofs.Template.Pieces

/-!
# Placing in any order

A node may be announced to its render parent before, while or after that one is placed, at the end
of a level or outside all levels, and once or many times. Nothing of this can be seen at the end.
The main statement is `Assembly.resolve_anyOrder`: after any calls that place every node with
something inside (`Assembly.PlacesAll`), each slot of such a node is bound to the node at its
position in the output, nothing waits, and every root expands to the walk over what renders in it.
So two such lists of calls give the same documents.

The invariant of a run is `Assembly.Assembling`, for texts that replace nothing
(`Assembly.exists_assembling`): a node that has been placed is known wherever it belongs, bound,
announced or waiting. At the end nothing is announced any more, because a level in which something
is placed is finished afterwards (`Assembly.announced_run`), and nothing waits for a placed node.
-/

namespace ViewCompiler

open NodeTree

namespace Assembly

variable {t : NodeTree} {a a' : Assembly} {calls calls' : List Call}

/-- Calls on one tree that place every node with something inside, and that finish a level after
the last node that is placed in it. -/
structure PlacesAll (t : NodeTree) (calls : List Call) : Prop where
  only : ∀ call ∈ calls, call = .beginLevel ∨ call = .finishLevel ∨ ∃ i, call = .place t i
  placed : ∀ p children, t.renderOrder p = .ok children → children ≠ [] → .place t p ∈ calls
  finished : ∀ before i after, calls = before ++ .place t i :: after →
    (run before).levelOpen = true → .finishLevel ∈ after

/-! ### One call after another -/

theorem textual_empty (t : NodeTree) : Textual t .empty :=
  ⟨fun _ _ h ↦ absurd h (by simp), fun _ _ h ↦ absurd h (by simp)⟩

/-- A node that does not exist is not placed. -/
theorem place_eq_self {done : List NodeId} (h : Assembling t .empty done a) {i : NodeId}
    (hi : t.size ≤ i) : (a.place t i).2 = a := by
  have hnot : ¬a.replaced.contains i = true := fun hmem ↦
    h.sound.replaced i (List.contains_iff_mem.1 hmem) (by simp)
  rw [place, if_neg hnot, renderOrder, get?_eq_none_iff.2 hi]

section

variable (hnested : Nested t)

include hnested

/-- **Every placed node is known**, after any calls that place nodes. -/
theorem exists_assembling
    (hcalls : ∀ call ∈ calls, call = .beginLevel ∨ call = .finishLevel ∨ ∃ i, call = .place t i) :
    ∃ done, Assembling t .empty done (run calls) ∧
      ∀ i < t.size, .place t i ∈ calls → i ∈ done := by
  induction calls using List.reverseRecOn with
  | nil =>
    have hno : ∀ e ∈ ([] : List (NodeId × List NodeId)), e.2.Sublist (t.order e.1) :=
      fun _ he ↦ absurd he List.not_mem_nil
    obtain ⟨hstart, -⟩ := assembling_saveOrders .empty hno rfl
    exact ⟨[], hstart, fun _ _ h ↦ absurd h List.not_mem_nil⟩
  | append_singleton calls call ih =>
    obtain ⟨done, h, hdone⟩ := ih fun c hc ↦ hcalls c (List.mem_append_left _ hc)
    rw [run_concat]
    have hlast : ∀ {i}, .place t i ∈ calls ++ [call] → call ≠ .place t i → i < t.size →
        i ∈ done := by
      intro i hmem hne hi
      rcases List.mem_append.1 hmem with hmem | hmem
      · exact hdone i hi hmem
      · exact absurd (List.mem_singleton.1 hmem).symm hne
    rcases hcalls call (List.mem_append_right _ (List.mem_singleton_self _)) with
      rfl | rfl | ⟨i, rfl⟩
    · exact ⟨done, h.beginLevel, fun j hj hmem ↦ hlast hmem (by simp) hj⟩
    · exact ⟨done, (h.finishLevel hnested (textual_empty t)).1,
        fun j hj hmem ↦ hlast hmem (by simp) hj⟩
    · rcases Nat.lt_or_ge i t.size with hi | hi
      · obtain ⟨a', hok, ha'⟩ := h.exists_place hnested (textual_empty t) hi (by simp)
        refine ⟨i :: done, ?_, fun j hj hmem ↦ ?_⟩
        · show Assembling t .empty _ ((run calls).place t i).2
          rwa [hok]
        · by_cases hij : i = j
          · exact hij ▸ List.mem_cons_self
          · exact List.mem_cons_of_mem _ (hlast hmem (by simpa using hij) hj)
      · refine ⟨done, ?_, fun j hj hmem ↦ ?_⟩
        · show Assembling t .empty _ ((run calls).place t i).2
          rwa [place_eq_self h hi]
        · have hij : i ≠ j := Nat.ne_of_gt (Nat.lt_of_lt_of_le hj hi)
          exact hlast hmem (by simpa using hij) hj

/-- **Something is announced only while its level is not finished.** -/
theorem announced_run
    (hcalls : ∀ call ∈ calls, call = .beginLevel ∨ call = .finishLevel ∨ ∃ i, call = .place t i) :
    (run calls).announced = .empty ∨
      ∃ before i after, calls = before ++ .place t i :: after ∧
        (run before).levelOpen = true ∧ .finishLevel ∉ after := by
  induction calls using List.reverseRecOn with
  | nil => exact .inl rfl
  | append_singleton calls call ih =>
    have hbefore : ∀ c ∈ calls, c = .beginLevel ∨ c = .finishLevel ∨ ∃ i, c = .place t i :=
      fun c hc ↦ hcalls c (List.mem_append_left _ hc)
    have hsame : call ≠ .finishLevel →
        ((run calls).perform call).announced = (run calls).announced →
        (run (calls ++ [call])).announced = .empty ∨
          ∃ before i after, calls ++ [call] = before ++ .place t i :: after ∧
            (run before).levelOpen = true ∧ .finishLevel ∉ after := by
      intro hne heq
      rcases ih hbefore with hempty | ⟨before, i, after, rfl, hopen, hafter⟩
      · exact .inl (by rw [run_concat, heq, hempty])
      · refine .inr ⟨before, i, after ++ [call], by simp, hopen, fun hmem ↦ ?_⟩
        rcases List.mem_append.1 hmem with hmem | hmem
        · exact hafter hmem
        · exact hne (List.mem_singleton.1 hmem).symm
    rcases hcalls call (List.mem_append_right _ (List.mem_singleton_self _)) with
      rfl | rfl | ⟨i, rfl⟩
    · exact hsame (by simp) rfl
    · obtain ⟨done, h, -⟩ := exists_assembling hnested hbefore
      refine .inl ?_
      rw [run_concat]
      exact (h.finishLevel hnested (textual_empty t)).2.1
    · cases hopen : (run calls).levelOpen with
      | true => exact .inr ⟨calls, i, [], rfl, hopen, List.not_mem_nil⟩
      | false =>
        obtain ⟨_, announced, hrebinds, -, hclosed⟩ := (run calls).exists_place_rebinds t i
        exact hsame (by simp) (hrebinds.announced.trans (hclosed hopen))

end

/-! ### At the end of the calls -/

section

variable (hnested : Nested t)

include hnested

/-- Where every node with something inside is placed, all bindings are known. -/
theorem PlacesAll.complete (h : PlacesAll t calls) (root : NodeId) :
    Complete t .empty (root :: List.range t.size) (run calls) := by
  obtain ⟨done, hassembling, hdone⟩ := exists_assembling hnested h.only
  have hannounced : (run calls).announced = .empty :=
    (announced_run hnested h.only).resolve_right fun ⟨before, i, after, heq, hopen, hafter⟩ ↦
      hafter (h.finished before i after heq hopen)
  refine hassembling.complete hannounced (fun i _ hi ↦ ?_) fun p _ c hc ↦ ?_
  · have hinside : t.order i ≠ [] := hi.resolve_left (by simp)
    obtain ⟨c, hc⟩ := List.exists_mem_of_ne_nil _ hinside
    have hlt := lt_size_of_mem_order hc
    exact hdone i hlt (h.placed i _ (renderOrder_eq hlt) hinside)
  · have hlt : c < t.size := lt_size_of_renderParent? (hnested.mem_order_iff.1 hc)
    exact List.mem_cons_of_mem _ (List.mem_range.2 hlt)

/-- **Each slot is bound to the node at its position**, and nothing else is bound. -/
theorem PlacesAll.binding?_eq_some_iff (h : PlacesAll t calls) {s : Placeholder} {c : NodeId} :
    (run calls).binding? s = some c ↔ SlotFor t s c := by
  have hcomplete := h.complete hnested 0
  refine ⟨hcomplete.bindings s c, fun hs ↦ hcomplete.bound s c ?_ hs⟩
  exact List.mem_cons_of_mem _ (List.mem_range.2 (lt_size_of_mem_order hs.mem))

/-- **No node waits.** -/
theorem PlacesAll.queued_eq_zero (h : PlacesAll t calls) : (run calls).queued = 0 := by
  obtain ⟨done, hassembling, hdone⟩ := exists_assembling hnested h.only
  have hempty : ∀ queue ∈ (run calls).waiting.values, queue.length = 0 := by
    intro queue hqueue
    obtain ⟨⟨p, _⟩, hentry, rfl⟩ := List.mem_map.1 hqueue
    have hget := SortedMap.mem_entries_iff.1 hentry
    refine List.length_eq_zero_iff.2 (List.eq_nil_iff_forall_not_mem.2 fun e he ↦ ?_)
    -- a node that waits would wait for one that has it inside, and so is placed
    obtain ⟨rfl, hslot⟩ := hassembling.sound.waiting p _ hget e he
    have hlt := lt_size_of_mem_order hslot.mem
    have hplaced := h.placed _ _ (renderOrder_eq hlt) (List.ne_nil_of_mem hslot.mem)
    have hnone := hassembling.drained _ (hdone _ hlt hplaced)
    exact absurd (hnone.symm.trans hget) (by simp)
  rw [queued]
  generalize (run calls).waiting.values = queues at hempty
  induction queues with
  | nil => rfl
  | cons queue r ih =>
    rw [List.foldl_cons, hempty queue List.mem_cons_self]
    exact ih fun q hq ↦ hempty q (List.mem_cons_of_mem _ hq)

end

/-! ### Resolution -/

/-- Resolution reads the bindings and the fragments only. -/
theorem resolve_congr (hbindings : a.bindings = a'.bindings)
    (hfragments : ∀ i, a.fragmentOf i = a'.fragmentOf i) (t : NodeTree) (root : NodeId) :
    a.resolve t root = a'.resolve t root := by
  have hpiece : ∀ path inner, a.expandPiece t root path inner =
      a'.expandPiece t root path inner := by
    intro path inner
    funext p
    cases p with
    | slot s => rw [expandPiece, expandPiece, binding?, binding?, hbindings]
    | _ => rfl
  have hexpand : ∀ fuel path node, a.expand t root fuel path node =
      a'.expand t root fuel path node := by
    intro fuel
    induction fuel with
    | zero => exact fun _ _ ↦ rfl
    | succ fuel ih =>
      intro path node
      rw [expand, expand, hfragments, hpiece]
      simp only [ih]
  rw [resolve, resolve, hbindings, hexpand]

/-- Links of the output that lead to no node again make a forest. -/
theorem forest_of_acyclic (hnested : Nested t)
    (hacyclic : ∀ i, ¬Relation.TransGen (fun c p ↦ t.renderParent? c = some p) i i) :
    Forest t.order where
  nodup := hnested.nodup_order
  parent hp hq :=
    Option.some.inj ((hnested.mem_order_iff.1 hp).symm.trans (hnested.mem_order_iff.1 hq))
  wellFounded := wellFounded_of_acyclic
    (fun hc ↦ lt_size_of_renderParent? (hnested.mem_order_iff.1 hc)) fun i hloop ↦
      hacyclic i (Relation.TransGen.mono (fun _ _ hc ↦ hnested.mem_order_iff.1 hc) _ _ hloop)

/-- An assembly in which every node is where it belongs in the output. -/
structure InOrder (t : NodeTree) (a : Assembly) : Prop where
  /-- The slots of a node with something inside are bound in the order of output. -/
  binding : ∀ p children, t.renderOrder p = .ok children → children ≠ [] → ∀ position : Int,
    a.binding? ⟨p, position⟩ = if 0 ≤ position then children[position.toNat]? else none
  queued : a.queued = 0
  /-- A root expands to the walk over what renders in it. -/
  resolve : ∀ root < t.size, ∃ o : Outline, o.id = root ∧ o.Follows t.order ∧
    t.renderSubtree root = .ok o.ids ∧ (a.resolve t root).pieces = o.pieces .empty ∧
    (a.resolve t root).pieces.filterMap Piece.node? = o.ids ∧
    (a.resolve t root).unresolved = [] ∧ (a.resolve t root).cycles = []

/-- **The order of placement does not matter.** In a tree whose output links fit and have no loops,
any calls that place every node with something inside leave every node where it belongs, and any two
such lists of calls give the same document for every root. -/
theorem resolve_anyOrder (hnested : Nested t)
    (hacyclic : ∀ i, ¬Relation.TransGen (fun c p ↦ t.renderParent? c = some p) i i)
    (hcalls : PlacesAll t calls) (hcalls' : PlacesAll t calls') :
    InOrder t (run calls) ∧
      ∀ root, (run calls).resolve t root = (run calls').resolve t root := by
  have hforest := forest_of_acyclic hnested hacyclic
  refine ⟨⟨fun p children hchildren _ position ↦ ?_, hcalls.queued_eq_zero hnested,
    fun root hroot ↦ ?_⟩, fun root ↦ ?_⟩
  · have hp : p < t.size := by
      by_contra hge
      rw [renderOrder, get?_eq_none_iff.2 (Nat.le_of_not_lt hge)] at hchildren
      exact absurd hchildren (by simp)
    obtain rfl := Except.ok.inj ((renderOrder_eq hp).symm.trans hchildren)
    refine Option.ext fun c ↦ ?_
    rw [hcalls.binding?_eq_some_iff hnested]
    split
    · rename_i hposition
      obtain ⟨k, rfl⟩ := Int.eq_ofNat_of_zero_le hposition
      constructor
      · rintro ⟨k', hk, hget⟩
        rwa [Int.toNat_natCast, Int.ofNat_inj.1 hk]
      · exact fun hget ↦ ⟨k, rfl, by rwa [Int.toNat_natCast] at hget⟩
    · rename_i hposition
      constructor
      · rintro ⟨k, hk, -⟩
        have hk : position = (k : Int) := hk
        omega
      · exact fun h ↦ absurd h (by simp)
  · obtain ⟨o, rfl, ho⟩ := hforest.exists_outline root
    have hlt : ∀ i ∈ o.ids, i < t.size := fun i hi ↦ by
      rcases Relation.ReflTransGen.cases_tail ((Outline.mem_ids_iff ho).1 hi) with rfl | ⟨q, -, hq⟩
      · exact hroot
      · exact lt_size_of_renderParent? (hnested.mem_order_iff.1 hq)
    have hnodup := hforest.nodup_ids ho
    obtain ⟨hpieces, hunresolved, hcycles⟩ :=
      (hcalls.complete hnested o.id).resolve_gives (textual_empty t) ho
        (fun i hi ↦ List.mem_cons_of_mem _ (List.mem_range.2 (hlt i hi))) hnodup
    refine ⟨o, rfl, ho, renderSubtree_eq ho hnodup hlt, hpieces, ?_, hunresolved, hcycles⟩
    rw [hpieces, Outline.nodes_pieces (textual_empty t) ho]
    exact List.filter_eq_self.2 fun _ _ ↦ by simp
  · refine resolve_congr (SortedMap.ext_get? fun s ↦ Option.ext fun c ↦ ?_) (fun i ↦ ?_) t root
    · exact (hcalls.binding?_eq_some_iff hnested).trans (hcalls'.binding?_eq_some_iff hnested).symm
    · rw [(hcalls.complete hnested i).fragments i List.mem_cons_self,
        (hcalls'.complete hnested i).fragments i List.mem_cons_self]

/-- An element that renders in a root. -/
def oneInside : NodeTree :=
  let t := ((NodeTree.empty.alloc .root "div").2.alloc .element "p").2
  (t.setRenderParent 1 0).toOption.getD t

/-- The inner node first, on a level of its own. -/
def innerFirst : List Call :=
  [.beginLevel, .place oneInside 1, .finishLevel, .place oneInside 0]

/-- The outer node first, without levels. -/
def outerFirst : List Call := [.place oneInside 0, .place oneInside 1]

theorem resolve_anyOrder_oneInside :
    (Nested oneInside ∧
      (∀ i, ¬Relation.TransGen (fun c p ↦ oneInside.renderParent? c = some p) i i) ∧
      PlacesAll oneInside innerFirst ∧ PlacesAll oneInside outerFirst) ∧
      InOrder oneInside (run innerFirst) ∧
      ∀ root, (run innerFirst).resolve oneInside root =
        (run outerFirst).resolve oneInside root := by
  have hblank : ∀ i, oneInside.place (i + 2) = .blank := fun i ↦
    place_eq_blank (Nat.le_add_left 2 i)
  have hparent : ∀ c p, oneInside.renderParent? c = some p ↔ c = 1 ∧ p = 0 := by
    intro c p
    rcases c with _ | _ | c
    · simp [show oneInside.renderParent? 0 = none from rfl]
    · simp [show oneInside.renderParent? 1 = some 0 from rfl, eq_comm]
    · simp [renderParent?, hblank, Place.blank]
  have hmembers : ∀ p, oneInside.renderMembers p = if p = 0 then [1] else [] := by
    intro p
    rcases p with _ | _ | p
    · rfl
    · rfl
    · simp [renderMembers, hblank, Place.blank]
  have hnested : Nested oneInside := by
    refine ⟨fun p c ↦ ?_, fun p ↦ ?_⟩
    · rw [hparent, hmembers]
      by_cases hp : p = 0 <;> simp [hp]
    · rw [hmembers]
      by_cases hp : p = 0 <;> simp [hp]
  have hacyclic : ∀ i, ¬Relation.TransGen (fun c p ↦ oneInside.renderParent? c = some p) i i := by
    intro i hloop
    obtain ⟨p, hp, -⟩ := Relation.TransGen.head'_iff.1 hloop
    obtain ⟨c, -, hc⟩ := Relation.TransGen.tail'_iff.1 hloop
    have hone := ((hparent _ _).1 hp).1
    have hzero := ((hparent _ _).1 hc).2
    exact absurd (hone.symm.trans hzero) (by decide)
  have hplaced : ∀ calls : List Call, Call.place oneInside 0 ∈ calls →
      ∀ p children, oneInside.renderOrder p = .ok children → children ≠ [] →
        Call.place oneInside p ∈ calls := by
    intro calls h0 p children hok hne
    rcases p with _ | _ | p
    · exact h0
    · exact absurd (Except.ok.inj hok).symm hne
    · rw [renderOrder, get?_eq_none_iff.2 (Nat.le_add_left 2 p)] at hok
      exact absurd hok (by simp)
  have hinner : PlacesAll oneInside innerFirst := by
    refine ⟨fun call hcall ↦ ?_, hplaced _ (by simp [innerFirst]),
      fun before i after heq hopen ↦ ?_⟩
    · simp only [innerFirst, List.mem_cons, List.not_mem_nil, or_false] at hcall
      rcases hcall with rfl | rfl | rfl | rfl
      · exact .inl rfl
      · exact .inr (.inr ⟨1, rfl⟩)
      · exact .inr (.inl rfl)
      · exact .inr (.inr ⟨0, rfl⟩)
    · rcases before with _ | ⟨_, _ | ⟨_, _ | ⟨_, _ | ⟨_, r⟩⟩⟩⟩
      · simp [innerFirst] at heq
      · obtain ⟨-, -, rfl⟩ : _ ∧ _ ∧ _ := by simpa [innerFirst] using heq
        exact List.mem_cons_self
      · simp [innerFirst] at heq
      · obtain ⟨rfl, rfl, rfl, -⟩ : _ ∧ _ ∧ _ ∧ _ := by simpa [innerFirst] using heq
        exact absurd hopen (by decide)
      · simp [innerFirst] at heq
  have houter : PlacesAll oneInside outerFirst := by
    refine ⟨fun call hcall ↦ ?_, hplaced _ (by simp [outerFirst]),
      fun before i after heq hopen ↦ ?_⟩
    · simp only [outerFirst, List.mem_cons, List.not_mem_nil, or_false] at hcall
      rcases hcall with rfl | rfl
      · exact .inr (.inr ⟨0, rfl⟩)
      · exact .inr (.inr ⟨1, rfl⟩)
    · rcases before with _ | ⟨_, _ | ⟨_, r⟩⟩
      · exact absurd hopen (by decide)
      · obtain ⟨rfl, -⟩ : _ ∧ _ := by simpa [outerFirst] using heq
        exact absurd hopen (by decide)
      · simp [outerFirst] at heq
  exact ⟨⟨hnested, hacyclic, hinner, houter⟩, resolve_anyOrder hnested hacyclic hinner houter⟩

end Assembly

end ViewCompiler
