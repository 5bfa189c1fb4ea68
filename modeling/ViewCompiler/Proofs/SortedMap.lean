import Mathlib.Data.List.Nodup
import Mathlib.Data.List.Perm.Subperm
import ViewCompiler.SortedMap

/-!
# Look-ups and entries of a sorted map

The entries of a sorted map are exactly its look-ups (`SortedMap.mem_entries_iff`), so a walk over
the entries meets every key once. What a walk of insertions does to a look-up is stated for three
shapes: taking over a list of entries (`SortedMap.get?_insertAll_eq_some_iff`), changing the values
of some keys one after another (`SortedMap.get?_foldl_update`), and sorting items into lists by a
key (`SortedMap.get?_foldl_group`). In the second the keys have to be distinct, or else a value
would be changed twice.
-/

namespace ViewCompiler

namespace SortedMap

variable {α β : Type} [Ord α]

section Entries

variable [Std.LawfulEqOrd α]

/-- Keys of different entries differ. -/
theorem nodup_keys (m : SortedMap α β) : (m.entries.map Prod.fst).Nodup := by
  rw [List.nodup_iff_pairwise_ne, List.pairwise_map]
  refine m.ascending.imp fun {a b} h heq ↦ ?_
  have hself : compare b.1 b.1 = .eq := Std.LawfulEqCmp.compare_eq_iff_eq.2 rfl
  rw [heq, hself] at h
  exact absurd h (by decide)

theorem lookup_eq_none_iff {k : α} {l : List (α × β)} :
    lookup k l = none ↔ ∀ e ∈ l, e.1 ≠ k := by
  induction l with
  | nil => simp [lookup]
  | cons x r ih =>
    obtain ⟨k', v⟩ := x
    by_cases h : k = k'
    · subst h
      simp [lookup]
    · have h' : k' ≠ k := fun e ↦ h e.symm
      simp [lookup, Std.LawfulEqCmp.compare_eq_iff_eq, h, h', ih]

theorem mem_of_lookup {k : α} {v : β} {l : List (α × β)} (h : lookup k l = some v) :
    (k, v) ∈ l := by
  induction l with
  | nil => exact absurd h (by simp [lookup])
  | cons x r ih =>
    obtain ⟨k', v'⟩ := x
    rw [lookup] at h
    split at h
    · rename_i hk
      obtain rfl := Std.LawfulEqCmp.compare_eq_iff_eq.1 hk
      obtain rfl := Option.some.inj h
      exact List.mem_cons_self
    · exact List.mem_cons_of_mem _ (ih h)

/-- **The entries are the look-ups.** -/
theorem mem_entries_iff {m : SortedMap α β} {k : α} {v : β} :
    (k, v) ∈ m.entries ↔ m.get? k = some v := by
  refine ⟨fun h ↦ ?_, mem_of_lookup⟩
  cases hk : m.get? k with
  | none => exact absurd rfl (lookup_eq_none_iff.1 hk _ h)
  | some v' =>
    have hpair : (k, v') = (k, v) :=
      List.inj_on_of_nodup_map m.nodup_keys (mem_of_lookup hk) h rfl
    rw [(Prod.mk.inj hpair).2]

theorem mem_keys_iff {m : SortedMap α β} {k : α} :
    k ∈ m.entries.map Prod.fst ↔ ∃ v, m.get? k = some v := by
  simp only [List.mem_map, Prod.exists, exists_and_right, exists_eq_right, mem_entries_iff]

/-- **Two maps with the same entries are equal**, since both have them in the same order. -/
theorem ext_entries [Std.OrientedOrd α] {m m' : SortedMap α β}
    (h : ∀ e, e ∈ m.entries ↔ e ∈ m'.entries) : m = m' := by
  have hperm : m.entries.Perm m'.entries :=
    (List.perm_ext_iff_of_nodup m.nodup_keys.of_map m'.nodup_keys.of_map).2 h
  have hentries : m.entries = m'.entries :=
    hperm.eq_of_pairwise (fun a b _ _ hlt hgt ↦ by
      rw [Std.OrientedOrd.eq_swap, hgt] at hlt
      exact absurd hlt (by decide)) m.ascending m'.ascending
  cases m
  cases m'
  cases hentries
  rfl

/-- **Two maps with the same look-ups are equal.** -/
theorem ext_get? [Std.OrientedOrd α] {m m' : SortedMap α β} (h : ∀ k, m.get? k = m'.get? k) :
    m = m' :=
  ext_entries fun ⟨k, v⟩ ↦ by rw [mem_entries_iff, mem_entries_iff, h]

theorem get?_filter (m : SortedMap α β) (p : α → β → Bool) (k : α) :
    (m.filter p).get? k = (m.get? k).filter (p k) := by
  have key : ∀ v, (m.filter p).get? k = some v ↔ m.get? k = some v ∧ p k v = true := fun v ↦ by
    rw [← mem_entries_iff, ← mem_entries_iff, filter, List.mem_filter]
  refine Option.ext fun v ↦ ?_
  rw [key, Option.filter_eq_some_iff]

end Entries

section Folds

variable [DecidableEq α]

/-- **Taking over entries with distinct keys.** -/
theorem get?_insertAll_eq_some_iff [Std.TransOrd α] [Std.LawfulEqOrd α] {l : List (α × β)}
    (hl : (l.map Prod.fst).Nodup) {m : SortedMap α β} {k : α} {v : β} :
    (m.insertAll l).get? k = some v ↔
      (k, v) ∈ l ∨ k ∉ l.map Prod.fst ∧ m.get? k = some v := by
  induction l generalizing m with
  | nil => simp [insertAll]
  | cons e r ih =>
    obtain ⟨k', v'⟩ := e
    rw [List.map_cons, List.nodup_cons] at hl
    have hstep : m.insertAll ((k', v') :: r) = (m.insert k' v').insertAll r := rfl
    rw [hstep, ih hl.2, get?_insert]
    by_cases h : k = k'
    · subst h
      have hr : (k, v) ∉ r := fun hmem ↦ hl.1 (List.mem_map.2 ⟨_, hmem, rfl⟩)
      have hr' : k ∉ r.map Prod.fst := hl.1
      simp [hr, hr', eq_comm]
    · simp [h]

/-- Whatever is found has been there or has been taken over. -/
theorem mem_of_get?_insertAll [Std.TransOrd α] [Std.LawfulEqOrd α] {l : List (α × β)}
    {m : SortedMap α β} {k : α} {v : β} (h : (m.insertAll l).get? k = some v) :
    (k, v) ∈ l ∨ m.get? k = some v := by
  induction l generalizing m with
  | nil => exact .inr h
  | cons e r ih =>
    have hstep : m.insertAll (e :: r) = (m.insert e.1 e.2).insertAll r := rfl
    rw [hstep] at h
    rcases ih h with hmem | hget
    · exact .inl (List.mem_cons_of_mem _ hmem)
    · rw [get?_insert] at hget
      split at hget
      · rename_i hk
        rw [hk, ← Option.some.inj hget]
        exact .inl List.mem_cons_self
      · exact .inr hget

/-- A key that is taken over, or has been there, is found. -/
theorem get?_insertAll_ne_none [Std.TransOrd α] [Std.LawfulEqOrd α] {l : List (α × β)}
    {m : SortedMap α β} {k : α} (h : k ∈ l.map Prod.fst ∨ m.get? k ≠ none) :
    (m.insertAll l).get? k ≠ none := by
  induction l generalizing m with
  | nil => exact h.resolve_left List.not_mem_nil
  | cons e r ih =>
    refine ih (m := m.insert e.1 e.2) ?_
    rw [get?_insert]
    by_cases hk : k = e.1
    · exact .inr (by simp [hk])
    · rw [if_neg hk]
      exact h.imp_left fun hmem ↦ (List.mem_cons.1 hmem).resolve_left hk

/-- **Changing the values of some keys one after another.** -/
theorem get?_foldl_update (change : Option β → Option β)
    {update : SortedMap α β → α → SortedMap α β}
    (hupdate : ∀ m k i, (update m k).get? i = if i = k then change (m.get? i) else m.get? i)
    {l : List α} (hl : l.Nodup) (m : SortedMap α β) (i : α) :
    (l.foldl update m).get? i = if i ∈ l then change (m.get? i) else m.get? i := by
  induction l generalizing m with
  | nil => simp
  | cons k r ih =>
    rw [List.nodup_cons] at hl
    rw [List.foldl_cons, ih hl.2, hupdate]
    by_cases h : i = k
    · subst h
      simp [hl.1]
    · simp [h]

section Group

variable {γ : Type} [Std.TransOrd α] [Std.LawfulEqOrd α] (key : γ → α) (value : γ → β)

/-- **Sorting items into lists by a key.** -/
theorem get?_foldl_group (l : List γ) (m : SortedMap α (List β)) (k : α) :
    (l.foldl (fun m e ↦ m.insert (key e) (m.getD (key e) [] ++ [value e])) m).get? k =
      if l.filter (fun e ↦ key e = k) = [] then m.get? k
      else some (m.getD k [] ++ (l.filter fun e ↦ key e = k).map value) := by
  induction l generalizing m with
  | nil => rfl
  | cons e r ih =>
    rw [List.foldl_cons, ih]
    by_cases h : key e = k
    · subst h
      split <;> simp_all [getD]
    · have h' : ¬k = key e := fun heq ↦ h heq.symm
      simp [getD, h, h']

variable {l : List γ} {k : α} {items : List β}

/-- **Every key that an item has is found once**, with all items that have it. -/
theorem mem_foldl_group_iff :
    (k, items) ∈ (l.foldl (fun m e ↦ m.insert (key e) (m.getD (key e) [] ++ [value e]))
        (empty : SortedMap α (List β))).entries ↔
      (∃ e ∈ l, key e = k) ∧ items = (l.filter fun e ↦ key e = k).map value := by
  rw [mem_entries_iff, get?_foldl_group]
  split
  · rename_i hnone
    simpa using fun e he hk _ ↦ absurd hk (by simpa using List.filter_eq_nil_iff.1 hnone e he)
  · rename_i hsome
    obtain ⟨e, he⟩ := List.exists_mem_of_ne_nil _ hsome
    have hkey : ∃ e ∈ l, key e = k := ⟨e, by simpa using he⟩
    rw [getD, get?_empty, Option.getD_none, List.nil_append, Option.some.injEq]
    exact ⟨fun h ↦ ⟨hkey, h.symm⟩, fun h ↦ h.2.symm⟩

/-- Every list that items are sorted into is the one that the look-up finds. -/
theorem eq_of_mem_foldl_group
    (h : (k, items) ∈ (l.foldl (fun m e ↦ m.insert (key e) (m.getD (key e) [] ++ [value e]))
      (empty : SortedMap α (List β))).entries) :
    items = (l.filter fun e ↦ key e = k).map value :=
  ((mem_foldl_group_iff key value).1 h).2

/-- And every item is in the list of its key. -/
theorem exists_mem_foldl_group {e : γ} (he : e ∈ l) :
    ∃ items, (key e, items) ∈ (l.foldl
      (fun m e ↦ m.insert (key e) (m.getD (key e) [] ++ [value e]))
      (empty : SortedMap α (List β))).entries ∧ value e ∈ items :=
  ⟨_, (mem_foldl_group_iff key value).2 ⟨⟨e, he, rfl⟩, rfl⟩,
    List.mem_map.2 ⟨e, List.mem_filter.2 ⟨he, by simp⟩, rfl⟩⟩

end Group

end Folds

end SortedMap

end ViewCompiler
