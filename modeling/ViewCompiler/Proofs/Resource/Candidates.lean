import ViewCompiler.Proofs.SortedMap
import ViewCompiler.Resource.Sharing

/-!
# What a chosen candidate guarantees

A candidate is found in three stages: the carriers of every attribute are collected, attributes with
the same carriers are bundled, and of the carriers of a bundle the largest part with one common
style is kept. `Sharing.Promotable` says what remains true after all three, and
`promotable_of_best?` that the best candidate has it:

* every covered element still has every attribute of the candidate, with its value;
* all covered elements refer to the same style so far;
* there are at least two of them, none twice, and no attribute name comes twice.

The last fact is not about the bundling alone. Two values of one attribute never share their
carriers, because an element has one value for it and every bundle has a carrier.
-/

namespace ViewCompiler

namespace Sharing

/-! ### Carriers -/

/-- The elements that carry a value of an attribute. -/
def carriersOf (m : Carriers) (k v : String) : List NodeId := (m.getD k .empty).getD v []

theorem carriersOf_addCarrier (id : NodeId) (m : Carriers) (pair : String × String) (k v : String) :
    carriersOf (addCarrier id m pair) k v =
      if pair = (k, v) then carriersOf m k v ++ [id] else carriersOf m k v := by
  obtain ⟨k', v'⟩ := pair
  simp only [carriersOf, addCarrier, SortedMap.getD, SortedMap.get?_insert, Prod.mk.injEq]
  by_cases hk : k' = k
  · subst hk
    by_cases hv : v' = v
    · subst hv
      simp
    · have hv' : ¬v = v' := fun e ↦ hv e.symm
      simp [hv, hv']
  · have hk' : ¬k = k' := fun e ↦ hk e.symm
    simp [hk, hk']

/-- One element is added to the carriers of each of its attributes. -/
theorem carriersOf_foldl_addCarrier (id : NodeId) {l : List (String × String)} (hl : l.Nodup)
    (m : Carriers) (k v : String) :
    carriersOf (l.foldl (addCarrier id) m) k v =
      if (k, v) ∈ l then carriersOf m k v ++ [id] else carriersOf m k v := by
  induction l generalizing m with
  | nil => simp
  | cons pair r ih =>
    rw [List.nodup_cons] at hl
    rw [List.foldl_cons, ih hl.2, carriersOf_addCarrier]
    by_cases h : pair = (k, v)
    · subst h
      simp [hl.1]
    · have h' : ¬(k, v) = pair := fun e ↦ h e.symm
      simp [h, h']

/-- Whether an element carries a value of an attribute. -/
def carries (k v : String) (e : NodeId × SortedMap String String) : Bool :=
  e.2.get? k == some v

theorem nodup_entries (m : SortedMap String String) : m.entries.Nodup := m.nodup_keys.of_map

theorem carriersOf_foldl (l : List (NodeId × SortedMap String String)) (m : Carriers)
    (k v : String) :
    carriersOf (l.foldl (fun m e ↦ e.2.entries.foldl (addCarrier e.1) m) m) k v =
      carriersOf m k v ++ (l.filter (carries k v)).map Prod.fst := by
  induction l generalizing m with
  | nil => simp
  | cons e r ih =>
    rw [List.foldl_cons, ih, carriersOf_foldl_addCarrier _ (nodup_entries e.2)]
    by_cases h : e.2.get? k = some v
    · have hmem : (k, v) ∈ e.2.entries := SortedMap.mem_entries_iff.2 h
      simp [hmem, carries, h]
    · have hmem : (k, v) ∉ e.2.entries := fun hm ↦ h (SortedMap.mem_entries_iff.1 hm)
      simp [hmem, carries, h]

/-- **The carriers of a value are the elements that have it**, in order. -/
theorem carriersOf_carriers (remaining : Remaining) (k v : String) :
    carriersOf (carriers remaining) k v =
      (remaining.entries.filter (carries k v)).map Prod.fst := by
  rw [carriers, carriersOf_foldl]
  rfl

theorem mem_carriersOf_carriers {remaining : Remaining} {k v : String} {id : NodeId} :
    id ∈ carriersOf (carriers remaining) k v ↔
      ∃ attributes, remaining.get? id = some attributes ∧ attributes.get? k = some v := by
  rw [carriersOf_carriers]
  simp only [List.mem_map, List.mem_filter, carries, beq_iff_eq]
  constructor
  · rintro ⟨⟨id', attributes⟩, ⟨hmem, hv⟩, rfl⟩
    exact ⟨attributes, SortedMap.mem_entries_iff.1 hmem, hv⟩
  · rintro ⟨attributes, hmem, hv⟩
    exact ⟨(id, attributes), ⟨SortedMap.mem_entries_iff.2 hmem, hv⟩, rfl⟩

theorem nodup_carriersOf_carriers (remaining : Remaining) (k v : String) :
    (carriersOf (carriers remaining) k v).Nodup := by
  rw [carriersOf_carriers]
  exact remaining.nodup_keys.sublist (List.filter_sublist.map Prod.fst)

theorem mem_carried {remaining : Remaining} {pair : String × String} {ids : List NodeId}
    (h : (pair, ids) ∈ carried remaining) :
    ids = carriersOf (carriers remaining) pair.1 pair.2 := by
  obtain ⟨⟨k, byValue⟩, hk, hv⟩ := List.mem_flatMap.1 h
  obtain ⟨⟨v, ids'⟩, hmem, heq⟩ := List.mem_map.1 hv
  obtain ⟨rfl, rfl⟩ := Prod.mk.inj heq
  have hk' : (carriers remaining).get? k = some byValue := SortedMap.mem_entries_iff.1 hk
  have hv' : byValue.get? v = some ids' := SortedMap.mem_entries_iff.1 hmem
  simp [carriersOf, SortedMap.getD, hk', hv']

/-- Every attribute with a value is listed once. -/
theorem nodup_carried (remaining : Remaining) : ((carried remaining).map Prod.fst).Nodup := by
  have hflat : (carried remaining).map Prod.fst =
      (carriers remaining).entries.flatMap fun e ↦ e.2.entries.map fun e' ↦ (e.1, e'.1) := by
    simp [carried, List.map_flatMap, Function.comp_def]
  rw [hflat, List.nodup_flatMap]
  refine ⟨fun e _ ↦ ?_, ?_⟩
  · have hcomp : (e.2.entries.map fun e' ↦ (e.1, e'.1)) =
        (e.2.entries.map Prod.fst).map fun v ↦ (e.1, v) := by simp [Function.comp_def]
    rw [hcomp]
    exact e.2.nodup_keys.map fun a b h ↦ (Prod.mk.inj h).2
  · refine (List.pairwise_map.1 ((carriers remaining).nodup_keys)).imp fun hne ↦ ?_
    intro pair hp hq
    obtain ⟨e', -, rfl⟩ := List.mem_map.1 hp
    obtain ⟨e'', -, heq⟩ := List.mem_map.1 hq
    exact hne (Prod.mk.inj heq).1.symm

/-! ### Bundles -/

/-- An attribute whose carriers have a bundle is put into that. -/
theorem addToBundle_of_mem {bs : List Candidate} (hnodup : (bs.map Candidate.coverage).Nodup)
    (pair : String × String) {ids : List NodeId} (h : ids ∈ bs.map Candidate.coverage) :
    addToBundle bs pair ids =
      bs.map fun b ↦ if b.coverage = ids then ⟨ids, b.attributes ++ [pair]⟩ else b := by
  induction bs with
  | nil => exact absurd h List.not_mem_nil
  | cons b r ih =>
    rw [List.map_cons, List.nodup_cons] at hnodup
    rw [addToBundle, List.map_cons]
    by_cases hb : b.coverage = ids
    · have hrest : r.map (fun b ↦ if b.coverage = ids then ⟨ids, b.attributes ++ [pair]⟩ else b) =
          r := by
        refine (List.map_congr_left fun b' hb' ↦ if_neg ?_).trans r.map_id
        exact fun heq : b'.coverage = ids ↦
          hnodup.1 (hb.trans heq.symm ▸ List.mem_map_of_mem hb')
      rw [if_pos hb, if_pos hb, hrest]
    · rw [if_neg hb, if_neg hb]
      rw [List.map_cons, List.mem_cons] at h
      rw [ih hnodup.2 (h.resolve_left fun heq ↦ hb heq.symm)]

/-- And a bundle is made for other carriers. -/
theorem addToBundle_of_not_mem {bs : List Candidate} (pair : String × String) {ids : List NodeId}
    (h : ids ∉ bs.map Candidate.coverage) : addToBundle bs pair ids = bs ++ [⟨ids, [pair]⟩] := by
  induction bs with
  | nil => rfl
  | cons b r ih =>
    rw [List.map_cons, List.mem_cons, not_or] at h
    rw [addToBundle, if_neg fun heq ↦ h.1 heq.symm, ih h.2, List.cons_append]

/-- The attributes of a list that have some carriers. -/
def withCarriers (l : List ((String × String) × List NodeId)) (ids : List NodeId) :
    List (String × String) :=
  (l.filter fun e ↦ e.2 = ids).map Prod.fst

theorem mem_withCarriers {l : List ((String × String) × List NodeId)} {ids : List NodeId}
    {pair : String × String} : pair ∈ withCarriers l ids ↔ (pair, ids) ∈ l := by
  simp only [withCarriers, List.mem_map, List.mem_filter, decide_eq_true_eq]
  constructor
  · rintro ⟨e, ⟨he, rfl⟩, rfl⟩
    exact he
  · exact fun h ↦ ⟨(pair, ids), ⟨h, rfl⟩, rfl⟩

theorem withCarriers_concat (l : List ((String × String) × List NodeId))
    (e : (String × String) × List NodeId) (ids : List NodeId) :
    withCarriers (l ++ [e]) ids =
      if e.2 = ids then withCarriers l ids ++ [e.1] else withCarriers l ids := by
  rw [withCarriers, List.filter_append, List.map_append]
  by_cases h : e.2 = ids <;> simp [withCarriers, h]

/-- The bundles of a list of attributes with their carriers: one for each two or more carriers,
with all attributes that have exactly these. -/
structure Bundled (l : List ((String × String) × List NodeId)) (bs : List Candidate) : Prop where
  nodup : (bs.map Candidate.coverage).Nodup
  whole : ∀ b ∈ bs, b.attributes = withCarriers l b.coverage
  nonempty : ∀ b ∈ bs, b.attributes ≠ []
  many : ∀ b ∈ bs, 1 < b.coverage.length
  complete : ∀ e ∈ l, 1 < e.2.length → e.2 ∈ bs.map Candidate.coverage

namespace Bundled

variable {l : List ((String × String) × List NodeId)} {bs : List Candidate}
  {e : (String × String) × List NodeId}

/-- A bundle has nothing to do with an attribute that has other carriers. -/
theorem whole_concat (h : Bundled l bs) {b : Candidate} (hb : b ∈ bs) (hne : e.2 ≠ b.coverage) :
    b.attributes = withCarriers (l ++ [e]) b.coverage := by
  rw [withCarriers_concat, if_neg hne, h.whole b hb]

theorem complete_concat (h : Bundled l bs) (he : 1 < e.2.length → e.2 ∈ bs.map Candidate.coverage) :
    ∀ e' ∈ l ++ [e], 1 < e'.2.length → e'.2 ∈ bs.map Candidate.coverage := by
  intro e' he' hmany
  rcases List.mem_append.1 he' with he' | he'
  · exact h.complete e' he' hmany
  · rw [List.mem_singleton.1 he'] at hmany ⊢
    exact he hmany

/-- An attribute that too few elements carry is passed over. -/
theorem skip (h : Bundled l bs) (hfew : ¬1 < e.2.length) : Bundled (l ++ [e]) bs where
  nodup := h.nodup
  whole b hb := h.whole_concat hb fun heq ↦ hfew (heq ▸ h.many b hb)
  nonempty := h.nonempty
  many := h.many
  complete := h.complete_concat fun hmany ↦ absurd hmany hfew

/-- An attribute joins the bundle of its carriers. -/
theorem join (h : Bundled l bs) (hmany : 1 < e.2.length) (hmem : e.2 ∈ bs.map Candidate.coverage) :
    Bundled (l ++ [e]) (addToBundle bs e.1 e.2) := by
  rw [addToBundle_of_mem h.nodup e.1 hmem]
  have hcoverage : (bs.map fun b ↦ if b.coverage = e.2 then
      (⟨e.2, b.attributes ++ [e.1]⟩ : Candidate) else b).map Candidate.coverage =
        bs.map Candidate.coverage := by
    rw [List.map_map]
    refine List.map_congr_left fun b _ ↦ ?_
    rw [Function.comp_apply]
    split
    · exact Eq.symm ‹_›
    · rfl
  have hall : ∀ b' ∈ bs.map fun b ↦ if b.coverage = e.2 then
      (⟨e.2, b.attributes ++ [e.1]⟩ : Candidate) else b,
      b'.attributes = withCarriers (l ++ [e]) b'.coverage ∧ b'.attributes ≠ [] ∧
        1 < b'.coverage.length := by
    intro b' hb'
    obtain ⟨b, hb, rfl⟩ := List.mem_map.1 hb'
    by_cases heq : b.coverage = e.2
    · rw [if_pos heq, withCarriers_concat, if_pos rfl, h.whole b hb, heq]
      exact ⟨rfl, by simp, hmany⟩
    · rw [if_neg heq]
      exact ⟨h.whole_concat hb fun h ↦ heq h.symm, h.nonempty b hb, h.many b hb⟩
  exact ⟨hcoverage ▸ h.nodup, fun b hb ↦ (hall b hb).1, fun b hb ↦ (hall b hb).2.1,
    fun b hb ↦ (hall b hb).2.2, hcoverage ▸ h.complete_concat fun _ ↦ hmem⟩

/-- An attribute with new carriers starts a bundle. -/
theorem start (h : Bundled l bs) (hmany : 1 < e.2.length) (hmem : e.2 ∉ bs.map Candidate.coverage) :
    Bundled (l ++ [e]) (addToBundle bs e.1 e.2) := by
  rw [addToBundle_of_not_mem e.1 hmem]
  have hnone : withCarriers l e.2 = [] :=
    List.eq_nil_iff_forall_not_mem.2 fun pair hpair ↦
      hmem (h.complete (pair, e.2) (mem_withCarriers.1 hpair) hmany)
  have hall : ∀ b ∈ bs ++ [⟨e.2, [e.1]⟩], b.attributes = withCarriers (l ++ [e]) b.coverage ∧
      b.attributes ≠ [] ∧ 1 < b.coverage.length := by
    intro b hb
    rcases List.mem_append.1 hb with hb | hb
    · have hne : e.2 ≠ b.coverage := fun heq ↦ hmem (heq.symm ▸ List.mem_map_of_mem hb)
      exact ⟨h.whole_concat hb hne, h.nonempty b hb, h.many b hb⟩
    · rw [List.mem_singleton.1 hb, withCarriers_concat, if_pos rfl, hnone]
      exact ⟨rfl, by simp, hmany⟩
  have hcoverage : (bs ++ [(⟨e.2, [e.1]⟩ : Candidate)]).map Candidate.coverage =
      bs.map Candidate.coverage ++ [e.2] := by simp
  refine ⟨?_, fun b hb ↦ (hall b hb).1, fun b hb ↦ (hall b hb).2.1, fun b hb ↦ (hall b hb).2.2,
    fun e' he' hmany' ↦ ?_⟩
  · rw [hcoverage]
    refine h.nodup.append (List.nodup_singleton _) fun ids hids hids' ↦ hmem ?_
    rwa [← List.mem_singleton.1 hids']
  · rw [hcoverage]
    rcases List.mem_append.1 he' with he' | he'
    · exact List.mem_append_left _ (h.complete e' he' hmany')
    · rw [List.mem_singleton.1 he']
      exact List.mem_append_right _ (List.mem_singleton_self _)

/-- **One more attribute.** -/
theorem concat (h : Bundled l bs) (e : (String × String) × List NodeId) :
    Bundled (l ++ [e]) (if 1 < e.2.length then addToBundle bs e.1 e.2 else bs) := by
  split
  · by_cases hmem : e.2 ∈ bs.map Candidate.coverage
    · exact h.join ‹_› hmem
    · exact h.start ‹_› hmem
  · exact h.skip ‹_›

theorem foldl (h : Bundled l bs) (more : List ((String × String) × List NodeId)) :
    Bundled (l ++ more)
      (more.foldl (fun bs e ↦ if 1 < e.2.length then addToBundle bs e.1 e.2 else bs) bs) := by
  induction more generalizing l bs with
  | nil => simpa using h
  | cons e r ih => simpa using ih (h.concat e)

end Bundled

/-- **All attributes with two carriers or more are bundled.** -/
theorem bundled_bundles (remaining : Remaining) : Bundled (carried remaining) (bundles remaining) :=
  have hempty : Bundled [] [] := ⟨.nil, by simp, by simp, by simp, by simp⟩
  hempty.foldl (carried remaining)

/-! ### The best candidate -/

/-- What is true of a candidate that is chosen. -/
structure Promotable (remaining : Remaining) (tips : Tips) (c : Candidate) : Prop where
  /-- Covered elements still have the attributes. -/
  carried : ∀ id ∈ c.coverage, ∃ attributes, remaining.get? id = some attributes ∧
    ∀ pair ∈ c.attributes, attributes.get? pair.1 = some pair.2
  /-- Covered elements have the same style so far. -/
  sameTip : ∀ i ∈ c.coverage, ∀ j ∈ c.coverage, tips.get? i = tips.get? j
  two_le : 2 ≤ c.coverage.length
  nodup_coverage : c.coverage.Nodup
  nodup_keys : (c.attributes.map Prod.fst).Nodup

theorem Promotable.exists_covered {remaining : Remaining} {tips : Tips} {c : Candidate}
    (h : Promotable remaining tips c) : ∃ id, id ∈ c.coverage :=
  List.exists_mem_of_length_pos (Nat.lt_of_lt_of_le Nat.two_pos h.two_le)

/-- The largest part is empty or one of the parts. -/
theorem largestPart_eq (tips : Tips) (ids : List NodeId) :
    largestPart tips ids = [] ∨
      ∃ id ∈ ids, largestPart tips ids = ids.filter fun id' ↦ tips.get? id' == tips.get? id := by
  refine List.foldlRecOn (motive := fun best ↦ best = [] ∨
    ∃ id ∈ ids, best = ids.filter fun id' ↦ tips.get? id' == tips.get? id) _ _ (.inl rfl) ?_
  intro best hbest part hpart
  split
  · obtain ⟨id, hid, rfl⟩ := List.mem_map.1 hpart
    exact .inr ⟨id, hid, rfl⟩
  · exact hbest

theorem largestPart_sublist (tips : Tips) (ids : List NodeId) :
    (largestPart tips ids).Sublist ids := by
  rcases largestPart_eq tips ids with h | ⟨id, -, h⟩
  · rw [h]; exact List.nil_sublist _
  · rw [h]; exact List.filter_sublist

theorem sameTip_largestPart (tips : Tips) (ids : List NodeId) :
    ∀ i ∈ largestPart tips ids, ∀ j ∈ largestPart tips ids, tips.get? i = tips.get? j := by
  rcases largestPart_eq tips ids with h | ⟨id, -, h⟩
  · simp [h]
  · rw [h]
    intro i hi j hj
    have hi' : tips.get? i = tips.get? id := by simpa using (List.mem_filter.1 hi).2
    have hj' : tips.get? j = tips.get? id := by simpa using (List.mem_filter.1 hj).2
    rw [hi', hj']

theorem two_le_of_qualifies {coverage attributes groupSize : Nat}
    (h : qualifies coverage attributes groupSize = true) : 2 ≤ coverage := by
  simp only [qualifies, Bool.or_eq_true, Bool.and_eq_true, decide_eq_true_eq, beq_iff_eq] at h
  omega

/-- A bundle narrowed to a part with one common style. -/
theorem exists_bundle_of_best? {remaining : Remaining} {tips : Tips} {n : Nat} {c : Candidate}
    (h : best? remaining tips n = some c) :
    ∃ b ∈ bundles remaining, c.coverage = largestPart tips b.coverage ∧
      c.attributes = b.attributes ∧ 2 ≤ c.coverage.length := by
  dsimp only [best?] at h
  split at h
  · exact absurd h (by simp)
  · rename_i c₀ cs heq
    obtain rfl := Option.some.inj h
    have hmem : cs.foldl (fun best c ↦ if (c.rank best).isLT then c else best) c₀ ∈ c₀ :: cs := by
      refine List.foldlRecOn (motive := fun best ↦ best ∈ c₀ :: cs) _ _ List.mem_cons_self ?_
      intro best hbest c hc
      split
      · exact List.mem_cons_of_mem _ hc
      · exact hbest
    rw [← heq, List.mem_filterMap] at hmem
    obtain ⟨b, hb, hc⟩ := hmem
    split at hc
    · rename_i hq
      obtain hc := Option.some.inj hc
      rw [← hc]
      exact ⟨b, hb, rfl, rfl, two_le_of_qualifies hq⟩
    · exact absurd hc (by simp)

/-- **The best candidate is promotable.** -/
theorem promotable_of_best? {remaining : Remaining} {tips : Tips} {n : Nat} {c : Candidate}
    (h : best? remaining tips n = some c) : Promotable remaining tips c := by
  obtain ⟨b, hb, hcoverage, hattributes, htwo⟩ := exists_bundle_of_best? h
  have hbundled := bundled_bundles remaining
  have hwhole := hattributes.trans (hbundled.whole b hb)
  have hnil : c.attributes ≠ [] := hattributes ▸ hbundled.nonempty b hb
  have hsub : c.coverage.Sublist b.coverage := hcoverage ▸ largestPart_sublist tips b.coverage
  have hlisted : ∀ pair ∈ c.attributes,
      b.coverage = carriersOf (carriers remaining) pair.1 pair.2 :=
    fun pair hp ↦ mem_carried (mem_withCarriers.1 (hwhole ▸ hp))
  have hcarried : ∀ id ∈ c.coverage, ∀ pair ∈ c.attributes,
      ∃ attributes, remaining.get? id = some attributes ∧ attributes.get? pair.1 = some pair.2 :=
    fun id hid pair hp ↦ mem_carriersOf_carriers.1 (hlisted pair hp ▸ hsub.subset hid)
  obtain ⟨first, hfirst⟩ : ∃ id, id ∈ c.coverage := by
    obtain ⟨id, r, hr⟩ := List.exists_cons_of_length_pos (show 0 < c.coverage.length by omega)
    exact ⟨id, by rw [hr]; exact List.mem_cons_self⟩
  have hpairs : c.attributes.Nodup :=
    hwhole ▸ (nodup_carried remaining).sublist (List.filter_sublist.map _)
  refine ⟨fun id hid ↦ ?_, hcoverage ▸ sameTip_largestPart tips b.coverage, htwo, ?_, ?_⟩
  · -- an element has one set of attributes, whichever pair it was found by
    obtain ⟨pair₀, hp₀⟩ : ∃ pair, pair ∈ c.attributes := List.exists_mem_of_ne_nil _ hnil
    obtain ⟨attributes, hattr, -⟩ := hcarried id hid pair₀ hp₀
    refine ⟨attributes, hattr, fun pair hp ↦ ?_⟩
    obtain ⟨attributes', hattr', hv⟩ := hcarried id hid pair hp
    obtain rfl := Option.some.inj (hattr.symm.trans hattr')
    exact hv
  · refine List.Nodup.sublist hsub ?_
    obtain ⟨pair₀, hp₀⟩ : ∃ pair, pair ∈ c.attributes := List.exists_mem_of_ne_nil _ hnil
    rw [hlisted pair₀ hp₀]
    exact nodup_carriersOf_carriers _ _ _
  · refine hpairs.map_on fun p hp q hq hpq ↦ ?_
    obtain ⟨attributes, hattr, hv⟩ := hcarried first hfirst p hp
    obtain ⟨attributes', hattr', hv'⟩ := hcarried first hfirst q hq
    obtain rfl := Option.some.inj (hattr.symm.trans hattr')
    exact Prod.ext hpq (Option.some.inj (hv.symm.trans (hpq ▸ hv')))

end Sharing

end ViewCompiler
