import ViewCompiler.Proofs.Resource.Candidates

/-!
# What an element keeps and what its styles carry

`Sharing.Moved` is the invariant of one element while attributes are moved into styles: what the
element had is split between what it still has and what the styles of its lineage carry, no
attribute name is in two places, and the names it has lost are those that its lineage carries. It
holds at the start (`Sharing.Moved.refl`), and putting one more style in front of the lineage keeps
it (`Sharing.Moved.promote`).

Since no name is in two of the styles, the order of the look-up through them does not matter
(`Sharing.findSome?_lookup_eq`).
-/

namespace ViewCompiler

namespace Sharing

/-- The attribute names in some styles. -/
def keysOf (l : List StyleEntry) : List String := l.flatMap fun e ↦ e.attributes.map Prod.fst

@[simp] theorem keysOf_nil : keysOf [] = [] := rfl

@[simp] theorem keysOf_cons (e : StyleEntry) (l : List StyleEntry) :
    keysOf (e :: l) = e.attributes.map Prod.fst ++ keysOf l := rfl

theorem mem_keysOf {k : String} {l : List StyleEntry} :
    k ∈ keysOf l ↔ ∃ e ∈ l, k ∈ e.attributes.map Prod.fst :=
  List.mem_flatMap

/-- An element's attributes split between what remains on it and the styles of its lineage. -/
structure Moved (original remaining : SortedMap String String) (l : List StyleEntry)
    (lost : Option (List String)) : Prop where
  split : ∀ k v, original.get? k = some v ↔
    remaining.get? k = some v ∨ ∃ e ∈ l, (k, v) ∈ e.attributes
  /-- What remains is in no style. -/
  apart : ∀ k v, remaining.get? k = some v → k ∉ keysOf l
  /-- No name is in two styles, or twice in one. -/
  once : (keysOf l).Nodup
  removed : ∀ k, k ∈ lost.getD [] ↔ k ∈ keysOf l
  untouched : l = [] → lost = none

theorem Moved.refl (original : SortedMap String String) : Moved original original [] none where
  split k v := by simp
  apart k v _ := by simp
  once := .nil
  removed k := by simp
  untouched _ := rfl

theorem get?_dropAttributes (attributes : List (String × String)) (m : SortedMap String String)
    (k : String) :
    (dropAttributes attributes m).get? k =
      if k ∈ attributes.map Prod.fst then none else m.get? k := by
  induction attributes generalizing m with
  | nil => simp [dropAttributes]
  | cons e r ih =>
    have hstep : dropAttributes (e :: r) m = dropAttributes r (m.erase e.1) := rfl
    have hcons : k ∈ (e :: r).map Prod.fst ↔ k = e.1 ∨ k ∈ r.map Prod.fst := by
      rw [List.map_cons, List.mem_cons]
    rw [hstep, ih, SortedMap.get?_erase]
    by_cases h : k = e.1
    · rw [if_pos h, ite_self, if_pos (hcons.2 (.inl h))]
    · simp only [hcons, h, false_or, if_false]

/-- **Moving some attributes into one more style.** -/
theorem Moved.promote {original remaining : SortedMap String String} {l : List StyleEntry}
    {lost : Option (List String)} (h : Moved original remaining l lost) {e : StyleEntry}
    (hcarried : ∀ pair ∈ e.attributes, remaining.get? pair.1 = some pair.2)
    (hkeys : (e.attributes.map Prod.fst).Nodup) :
    Moved original (dropAttributes e.attributes remaining) (e :: l)
      (some (lost.getD [] ++ e.attributes.map Prod.fst)) where
  split k v := by
    rw [h.split, get?_dropAttributes]
    by_cases hk : k ∈ e.attributes.map Prod.fst
    · -- the remaining value of a moved name is the value that the style carries
      have hv : remaining.get? k = some v ↔ (k, v) ∈ e.attributes := by
        obtain ⟨⟨k', v'⟩, hmem, rfl⟩ := List.mem_map.1 hk
        refine ⟨fun hv ↦ ?_, fun hmem ↦ hcarried _ hmem⟩
        rw [hcarried _ hmem, Option.some.injEq] at hv
        exact hv ▸ hmem
      simp [hk, hv]
    · have hv : (k, v) ∉ e.attributes := fun hmem ↦ hk (List.mem_map.2 ⟨_, hmem, rfl⟩)
      simp [hk, hv]
  apart k v hv := by
    rw [get?_dropAttributes] at hv
    split at hv
    · exact absurd hv (by simp)
    · rename_i hk
      rw [keysOf_cons, List.mem_append, not_or]
      exact ⟨hk, h.apart k v hv⟩
  once := by
    rw [keysOf_cons]
    refine hkeys.append h.once fun k hk hl ↦ ?_
    obtain ⟨pair, hpair, rfl⟩ := List.mem_map.1 hk
    exact h.apart _ _ (hcarried pair hpair) hl
  removed k := by
    rw [Option.getD_some, List.mem_append, h.removed, keysOf_cons, List.mem_append, or_comm]
  untouched hnil := absurd hnil (by simp)

/-- A value in one of the styles is the one that the look-up through them finds. -/
theorem findSome?_lookup_eq {l : List StyleEntry} (honce : (keysOf l).Nodup) {e : StyleEntry}
    (he : e ∈ l) {k v : String} (hv : (k, v) ∈ e.attributes) :
    l.findSome? (fun e ↦ e.attributes.lookup k) = some v := by
  induction l with
  | nil => exact absurd he List.not_mem_nil
  | cons e' r ih =>
    rw [keysOf_cons, List.nodup_append'] at honce
    obtain ⟨hfirst, hrest, hdisjoint⟩ := honce
    rcases List.mem_cons.1 he with rfl | he
    · have hlookup : e.attributes.lookup k = some v := by
        rw [List.lookup_eq_some_iff]
        obtain ⟨before, after, hsplit⟩ := List.append_of_mem hv
        refine ⟨before, after, hsplit, fun pair hpair ↦ ?_⟩
        rw [hsplit, List.map_append, List.nodup_append'] at hfirst
        have hne := hfirst.2.2 (List.mem_map.2 ⟨pair, hpair, rfl⟩)
        simpa using fun heq : k = pair.1 ↦ hne (heq ▸ List.mem_cons_self)
      simp [hlookup]
    · have hk : k ∈ keysOf r := mem_keysOf.2 ⟨e, he, List.mem_map.2 ⟨_, hv, rfl⟩⟩
      have hnone : e'.attributes.lookup k = none := by
        rw [List.lookup_eq_none_iff]
        intro pair hpair
        have hne : pair.1 ≠ k := fun heq ↦
          hdisjoint (List.mem_map.2 ⟨pair, hpair, heq⟩) hk
        simpa using fun heq ↦ hne heq.symm
      simp [hnone, ih hrest he]

/-- A name that some style carries is carried by one style only. -/
theorem countP_eq_one {l : List StyleEntry} (honce : (keysOf l).Nodup) {k : String}
    (hk : k ∈ keysOf l) : l.countP (fun e ↦ (e.attributes.map Prod.fst).contains k) = 1 := by
  induction l with
  | nil => exact absurd hk (by simp)
  | cons e r ih =>
    rw [keysOf_cons, List.nodup_append'] at honce
    obtain ⟨-, hrest, hdisjoint⟩ := honce
    by_cases he : k ∈ e.attributes.map Prod.fst
    · have hzero : r.countP (fun e ↦ (e.attributes.map Prod.fst).contains k) = 0 := by
        rw [List.countP_eq_zero]
        intro e' he' hcontains
        rw [List.contains_iff_mem] at hcontains
        exact hdisjoint he (mem_keysOf.2 ⟨e', he', hcontains⟩)
      rw [List.countP_cons, hzero]
      simpa using he
    · have hr : k ∈ keysOf r := by simpa [he] using hk
      rw [List.countP_cons, ih hrest hr]
      simpa using he

end Sharing

end ViewCompiler
