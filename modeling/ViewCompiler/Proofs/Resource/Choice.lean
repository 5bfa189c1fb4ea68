import ViewCompiler.Proofs.Resource.Candidates

/-!
# Nothing better is passed over

`Sharing.Promotable` says what is true of the candidate that is chosen. Here is what is true of the
others. Every attribute with two holders or more is in one bundle, together with all attributes
that have the same holders (`Sharing.exists_of_best?`). Of the holders of a bundle as many as
possible are covered: elements that refer to one style are never more than the largest part
(`Sharing.length_le_largestPart`). So if the bundle of some attribute qualifies, a candidate is
chosen, and it covers no fewer elements (`Sharing.exists_best?_of_qualifies`).

Only the number of covered elements is compared. The rest of the order of candidates decides between
candidates of the same size, and nothing here depends on it.
-/

namespace ViewCompiler

namespace Sharing

/-! ### Holders of an attribute -/

/-- The elements that still have an attribute, in order. -/
def holders (remaining : Remaining) (pair : String × String) : List NodeId :=
  carriersOf (carriers remaining) pair.1 pair.2

section Holders

variable {remaining : Remaining} {pair : String × String} {ids : List NodeId}

theorem mem_holders {id : NodeId} : id ∈ holders remaining pair ↔
    ∃ attributes, remaining.get? id = some attributes ∧ attributes.get? pair.1 = some pair.2 :=
  mem_carriersOf_carriers

theorem nodup_holders (remaining : Remaining) (pair : String × String) :
    (holders remaining pair).Nodup :=
  nodup_carriersOf_carriers remaining pair.1 pair.2

/-- Holders come in the order of the elements, so those of two attributes are equal if the same
elements are among them. -/
theorem holders_congr {pair' : String × String}
    (h : ∀ id, id ∈ holders remaining pair ↔ id ∈ holders remaining pair') :
    holders remaining pair = holders remaining pair' := by
  have hmem : ∀ e ∈ remaining.entries, ∀ q : String × String,
      carries q.1 q.2 e = true ↔ e.1 ∈ holders remaining q := by
    intro e he q
    have hget : remaining.get? e.1 = some e.2 := SortedMap.mem_entries_iff.1 he
    rw [mem_holders, carries, beq_iff_eq]
    constructor
    · exact fun hq ↦ ⟨e.2, hget, hq⟩
    · rintro ⟨attributes, hattributes, hq⟩
      obtain rfl := Option.some.inj (hget.symm.trans hattributes)
      exact hq
  rw [holders, holders, carriersOf_carriers, carriersOf_carriers]
  refine congrArg (List.map Prod.fst) (List.filter_congr fun e he ↦ ?_)
  rw [Bool.eq_iff_iff, hmem e he pair, hmem e he pair']
  exact h e.1

/-- An attribute that is held is listed with its holders. -/
theorem mem_carried_of_holders (h : holders remaining pair ≠ []) :
    (pair, holders remaining pair) ∈ carried remaining := by
  obtain ⟨k, v⟩ := pair
  cases hk : (carriers remaining).get? k with
  | none => exact absurd (by simp [holders, carriersOf, SortedMap.getD, hk]) h
  | some byValue =>
    cases hv : byValue.get? v with
    | none => exact absurd (by simp [holders, carriersOf, SortedMap.getD, hk, hv]) h
    | some ids =>
      have hids : holders remaining (k, v) = ids := by
        simp [holders, carriersOf, SortedMap.getD, hk, hv]
      rw [hids]
      exact List.mem_flatMap.2 ⟨(k, byValue), SortedMap.mem_entries_iff.2 hk,
        List.mem_map.2 ⟨(v, ids), SortedMap.mem_entries_iff.2 hv, rfl⟩⟩

/-- **The attributes of a bundle are those with the same holders.** -/
theorem mem_withCarriers_carried (hids : ids ≠ []) :
    pair ∈ withCarriers (carried remaining) ids ↔ holders remaining pair = ids := by
  rw [mem_withCarriers]
  refine ⟨fun h ↦ (mem_carried h).symm, ?_⟩
  rintro rfl
  exact mem_carried_of_holders hids

end Holders

/-! ### The largest part -/

/-- What a fold arrives at is no smaller than what it starts from and meets, if no step goes
down. -/
theorem le_foldl {α : Type} (size : α → Nat) {step : α → α → α}
    (hstep : ∀ best a, size best ≤ size (step best a) ∧ size a ≤ size (step best a)) (l : List α) :
    ∀ best, ∀ a ∈ best :: l, size a ≤ size (l.foldl step best) := by
  induction l with
  | nil => intro best a ha; rw [List.mem_singleton.1 ha]; exact Nat.le_refl _
  | cons b r ih =>
    intro best a ha
    have hnext := ih (step best b) (step best b) List.mem_cons_self
    rcases List.mem_cons.1 ha with rfl | ha
    · exact Nat.le_trans (hstep a b).1 hnext
    · rcases List.mem_cons.1 ha with rfl | ha
      · exact Nat.le_trans (hstep best a).2 hnext
      · exact ih (step best b) a (List.mem_cons_of_mem _ ha)

section Part

variable {tips tips' : Tips} {ids ids' part : List NodeId}

/-- **Elements with one common style are no more than the largest part.** -/
theorem length_le_largestPart (hnodup : part.Nodup) (hsub : part ⊆ ids)
    (hsame : ∀ i ∈ part, ∀ j ∈ part, tips.get? i = tips.get? j) :
    part.length ≤ (largestPart tips ids).length := by
  obtain - | ⟨id, r⟩ := part
  · exact Nat.zero_le _
  have hid : id ∈ id :: r := List.mem_cons_self
  have hinside : id :: r ⊆ ids.filter fun id' ↦ tips.get? id' == tips.get? id := fun i hi ↦
    List.mem_filter.2 ⟨hsub hi, beq_iff_eq.2 (hsame i hi id hid)⟩
  refine Nat.le_trans (List.subperm_of_subset hnodup hinside).length_le ?_
  refine le_foldl List.length (fun best part ↦ ?_) _ [] _
    (List.mem_cons_of_mem _ (List.mem_map_of_mem (hsub hid)))
  split
  · exact ⟨Nat.le_of_lt ‹_›, Nat.le_refl _⟩
  · exact ⟨Nat.le_refl _, Nat.not_lt.1 ‹_›⟩

theorem nodup_largestPart (tips : Tips) (hnodup : ids.Nodup) : (largestPart tips ids).Nodup :=
  hnodup.sublist (largestPart_sublist tips ids)

/-- The largest part does not grow when there are fewer elements, and fewer of them refer to the
same style. -/
theorem length_largestPart_le (hnodup : ids'.Nodup) (hsub : ids' ⊆ ids)
    (hfiner : ∀ i ∈ ids', ∀ j ∈ ids', tips'.get? i = tips'.get? j → tips.get? i = tips.get? j) :
    (largestPart tips' ids').length ≤ (largestPart tips ids).length := by
  have hinside := (largestPart_sublist tips' ids').subset
  refine length_le_largestPart (nodup_largestPart tips' hnodup)
    (fun i hi ↦ hsub (hinside hi)) fun i hi j hj ↦ ?_
  exact hfiner i (hinside hi) j (hinside hj) (sameTip_largestPart tips' ids' i hi j hj)

/-- Elements with one common style are all in the largest part, or none of them is. -/
theorem mem_largestPart_congr {i j : NodeId} (hi : i ∈ ids) (hj : j ∈ ids)
    (hsame : tips.get? i = tips.get? j) : i ∈ largestPart tips ids ↔ j ∈ largestPart tips ids := by
  rcases largestPart_eq tips ids with h | ⟨id, -, h⟩
  · simp [h]
  · rw [h, List.mem_filter, List.mem_filter, hsame]
    simp [hi, hj]

end Part

/-! ### The best of all candidates -/

/-- Whether the candidate that an attribute belongs to is worth a style. -/
def Qualifies (remaining : Remaining) (tips : Tips) (groupSize : Nat) (pair : String × String) :
    Prop :=
  qualifies (largestPart tips (holders remaining pair)).length
    (withCarriers (carried remaining) (holders remaining pair)).length groupSize = true

section Best

variable {remaining : Remaining} {tips : Tips} {n : Nat} {c : Candidate} {pair : String × String}

/-- A better candidate covers no fewer elements. -/
theorem Candidate.length_le_of_rank {a b : Candidate} (h : (a.rank b).isLT = true) :
    b.coverage.length ≤ a.coverage.length := by
  by_contra hlt
  have hgt : compare b.coverage.length a.coverage.length = .gt :=
    Nat.compare_eq_gt.2 (Nat.not_le.1 hlt)
  rw [Candidate.rank, hgt] at h
  exact Bool.false_ne_true h

/-- And a candidate that is not better covers no more. -/
theorem Candidate.length_le_of_not_rank {a b : Candidate} (h : ¬(a.rank b).isLT = true) :
    a.coverage.length ≤ b.coverage.length := by
  by_contra hlt
  have hlt : compare b.coverage.length a.coverage.length = .lt :=
    Nat.compare_eq_lt.2 (Nat.not_le.1 hlt)
  rw [Candidate.rank, hlt] at h
  exact h rfl

/-- **Every bundle that qualifies is taken into account.** -/
theorem exists_best?_of_mem_bundles {b : Candidate} (hb : b ∈ bundles remaining)
    (hq : qualifies (largestPart tips b.coverage).length b.attributes.length n = true) :
    ∃ c, best? remaining tips n = some c ∧
      (largestPart tips b.coverage).length ≤ c.coverage.length := by
  dsimp only [best?]
  have hmem : (⟨largestPart tips b.coverage, b.attributes⟩ : Candidate) ∈
      (bundles remaining).filterMap fun b ↦
        if qualifies (largestPart tips b.coverage).length b.attributes.length n then
          some (Candidate.mk (largestPart tips b.coverage) b.attributes) else none :=
    List.mem_filterMap.2 ⟨b, hb, if_pos hq⟩
  split
  · rename_i hnone
    rw [hnone] at hmem
    exact absurd hmem List.not_mem_nil
  · rename_i c₀ cs hcs
    rw [hcs] at hmem
    refine ⟨_, rfl, le_foldl (fun c : Candidate ↦ c.coverage.length)
      (fun best a ↦ ?_) cs c₀ _ hmem⟩
    split
    · exact ⟨Candidate.length_le_of_rank ‹_›, Nat.le_refl _⟩
    · exact ⟨Nat.le_refl _, Candidate.length_le_of_not_rank ‹_›⟩

/-- **The chosen candidate is a whole bundle, narrowed to its largest part.** -/
theorem exists_of_best? (h : best? remaining tips n = some c) :
    ∃ ids, 1 < ids.length ∧ c.coverage = largestPart tips ids ∧
      c.attributes = withCarriers (carried remaining) ids ∧ c.attributes ≠ [] := by
  obtain ⟨b, hb, hcoverage, hattributes, -⟩ := exists_bundle_of_best? h
  have hbundled := bundled_bundles remaining
  exact ⟨b.coverage, hbundled.many b hb, hcoverage, hattributes.trans (hbundled.whole b hb),
    hattributes ▸ hbundled.nonempty b hb⟩

/-- The covered elements are the largest part of the holders of every attribute in the
candidate. -/
theorem coverage_of_best? (h : best? remaining tips n = some c) (hpair : pair ∈ c.attributes) :
    c.coverage = largestPart tips (holders remaining pair) := by
  obtain ⟨ids, hmany, hcoverage, hattributes, -⟩ := exists_of_best? h
  rw [hattributes, mem_withCarriers_carried (List.ne_nil_of_length_pos (by omega))] at hpair
  rw [hcoverage, hpair]

/-- **No attribute that qualifies is passed over for a smaller candidate.** -/
theorem exists_best?_of_qualifies (h : Qualifies remaining tips n pair) :
    ∃ c, best? remaining tips n = some c ∧
      (largestPart tips (holders remaining pair)).length ≤ c.coverage.length := by
  have hpart := two_le_of_qualifies h
  have hmany : 1 < (holders remaining pair).length :=
    Nat.lt_of_lt_of_le hpart (largestPart_sublist tips _).length_le
  have hbundled := bundled_bundles remaining
  have hlisted :=
    mem_carried_of_holders (List.ne_nil_of_length_pos (Nat.lt_trans Nat.one_pos hmany))
  obtain ⟨b, hb, hcoverage⟩ := List.mem_map.1 (hbundled.complete _ hlisted hmany)
  have hcoverage : b.coverage = holders remaining pair := hcoverage
  rw [← hcoverage]
  refine exists_best?_of_mem_bundles hb ?_
  rw [hbundled.whole b hb, hcoverage]
  exact h

/-- Three elements with one common style are always enough. -/
theorem qualifies_of_three (h : 2 < (largestPart tips (holders remaining pair)).length) :
    Qualifies remaining tips n pair := by
  simp [Qualifies, qualifies, h]

/-- Two elements are enough for two attributes with the same holders. -/
theorem qualifies_of_two {pair' : String × String} (hne : pair ≠ pair')
    (hsame : holders remaining pair = holders remaining pair')
    (h : 1 < (largestPart tips (holders remaining pair)).length) :
    Qualifies remaining tips n pair := by
  have hids : holders remaining pair ≠ [] := List.ne_nil_of_length_pos
    (Nat.lt_of_lt_of_le (Nat.lt_trans Nat.one_pos h) (largestPart_sublist tips _).length_le)
  have hboth : [pair, pair'] ⊆ withCarriers (carried remaining) (holders remaining pair) := by
    intro q hq
    rw [mem_withCarriers_carried hids]
    rcases List.mem_cons.1 hq with rfl | hq
    · rfl
    · rw [List.mem_singleton.1 hq, hsame]
  have htwo : 2 ≤ (withCarriers (carried remaining) (holders remaining pair)).length :=
    (List.subperm_of_subset (by simpa using hne) hboth).length_le
  have hmany : 1 < (withCarriers (carried remaining) (holders remaining pair)).length := htwo
  simp [Qualifies, qualifies, h, hmany]

/-- All elements of a tag are enough, if there are two. -/
theorem qualifies_of_all (hn : 1 < n)
    (h : (largestPart tips (holders remaining pair)).length = n) :
    Qualifies remaining tips n pair := by
  simp [Qualifies, qualifies, h, hn]

end Best

end Sharing

end ViewCompiler
