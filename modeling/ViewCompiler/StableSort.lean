/-!
# Stable sorting

`stableSort le l` puts the elements of a list in the order of `le`; elements of which neither comes
strictly before the other keep their order.  The result is a permutation
(`perm_stableSort`) and ordered (`pairwise_stableSort`).  Elements that are in order already stay in
order (`sublist_stableSort`); `StableOrder` puts the three together.  Whatever relates the elements
in the order that they come in still relates ties (`pairwise_stableSort_ties`).  Where no two
elements are equal in order, the order that they come in does not matter
(`stableSort_eq_of_perm`).
-/

namespace ViewCompiler

variable {α : Type}

/-- Puts an element in front of the first one that does not come before it. -/
def insertOrdered (le : α → α → Bool) (a : α) : List α → List α
  | [] => [a]
  | b :: r => if le a b then a :: b :: r else b :: insertOrdered le a r

/-- Sorts a list, keeping the order of equals. -/
def stableSort (le : α → α → Bool) : List α → List α
  | [] => []
  | a :: r => insertOrdered le a (stableSort le r)

theorem perm_insertOrdered (le : α → α → Bool) (a : α) (l : List α) :
    (insertOrdered le a l).Perm (a :: l) := by
  induction l with
  | nil => exact .refl _
  | cons b r ih =>
    unfold insertOrdered
    split
    · exact .refl _
    · exact (ih.cons b).trans (.swap a b r)

theorem perm_stableSort (le : α → α → Bool) (l : List α) : (stableSort le l).Perm l := by
  induction l with
  | nil => exact .refl _
  | cons a r ih => exact (perm_insertOrdered le a _).trans (ih.cons a)

@[simp] theorem mem_stableSort {le : α → α → Bool} {a : α} {l : List α} :
    a ∈ stableSort le l ↔ a ∈ l :=
  (perm_stableSort le l).mem_iff

@[simp] theorem length_stableSort (le : α → α → Bool) (l : List α) :
    (stableSort le l).length = l.length :=
  (perm_stableSort le l).length_eq

theorem pairwise_insertOrdered {le : α → α → Bool}
    (total : ∀ a b, le a b = true ∨ le b a = true)
    (trans : ∀ a b c, le a b = true → le b c = true → le a c = true) {a : α} {l : List α}
    (h : l.Pairwise fun x y => le x y = true) :
    (insertOrdered le a l).Pairwise fun x y => le x y = true := by
  induction l with
  | nil => exact List.pairwise_singleton _ _
  | cons b r ih =>
    obtain ⟨hb, hr⟩ := List.pairwise_cons.1 h
    unfold insertOrdered
    split
    · rename_i hab
      refine List.pairwise_cons.2 ⟨fun x hx => ?_, h⟩
      rcases List.mem_cons.1 hx with rfl | hx
      · exact hab
      · exact trans _ _ _ hab (hb x hx)
    · rename_i hab
      refine List.pairwise_cons.2 ⟨fun x hx => ?_, ih hr⟩
      rcases List.mem_cons.1 ((perm_insertOrdered le a r).mem_iff.1 hx) with rfl | hx
      · exact (total x b).resolve_left hab
      · exact hb x hx

theorem pairwise_stableSort {le : α → α → Bool}
    (total : ∀ a b, le a b = true ∨ le b a = true)
    (trans : ∀ a b c, le a b = true → le b c = true → le a c = true) (l : List α) :
    (stableSort le l).Pairwise fun x y => le x y = true := by
  induction l with
  | nil => exact .nil
  | cons a r ih => exact pairwise_insertOrdered total trans ih

theorem pairwise_insertOrdered_ties {le : α → α → Bool} {before : α → α → Prop} {a : α}
    {l : List α} (ha : ∀ b ∈ l, before a b)
    (h : l.Pairwise fun x y => le y x = true → before x y) :
    (insertOrdered le a l).Pairwise fun x y => le y x = true → before x y := by
  induction l with
  | nil => exact List.pairwise_singleton _ _
  | cons b r ih =>
    obtain ⟨hb, hr⟩ := List.pairwise_cons.1 h
    unfold insertOrdered
    split
    · exact List.pairwise_cons.2 ⟨fun x hx _ => ha x hx, h⟩
    · rename_i hab
      have har : ∀ x ∈ r, before a x := fun x hx => ha x (List.mem_cons_of_mem b hx)
      refine List.pairwise_cons.2 ⟨fun x hx hxb => ?_, ih har hr⟩
      rcases List.mem_cons.1 ((perm_insertOrdered le a r).mem_iff.1 hx) with rfl | hx
      · exact absurd hxb hab
      · exact hb x hx hxb

/-- Elements of which neither comes strictly before the other keep their order. -/
theorem pairwise_stableSort_ties (le : α → α → Bool) {before : α → α → Prop} {l : List α}
    (h : l.Pairwise before) :
    (stableSort le l).Pairwise fun x y => le y x = true → before x y := by
  induction h with
  | nil => exact .nil
  | cons ha _ ih =>
    exact pairwise_insertOrdered_ties (fun b hb => ha b (mem_stableSort.1 hb)) ih

theorem sublist_insertOrdered (le : α → α → Bool) (a : α) (l : List α) :
    l.Sublist (insertOrdered le a l) := by
  induction l with
  | nil => exact List.nil_sublist _
  | cons b r ih =>
    unfold insertOrdered
    split
    · exact List.sublist_cons_self _ _
    · exact ih.cons_cons b

theorem cons_sublist_insertOrdered {le : α → α → Bool} {a : α} {s l : List α}
    (h : s.Sublist l) (ha : ∀ b ∈ s, le a b = true) :
    (a :: s).Sublist (insertOrdered le a l) := by
  induction l with
  | nil => rw [List.sublist_nil.1 h]; exact List.Sublist.refl _
  | cons b r ih =>
    unfold insertOrdered
    split
    · exact h.cons_cons a
    · rename_i hab
      -- the first element is not among those that have to come after the new one
      have hr : s.Sublist r := by
        cases h with
        | cons _ h => exact h
        | cons_cons _ h => exact absurd (ha b List.mem_cons_self) hab
      exact (ih hr).cons b

/-- Elements in order keep it, whatever is sorted with them. -/
theorem sublist_stableSort {le : α → α → Bool} {s l : List α} (h : s.Sublist l)
    (hs : s.Pairwise fun x y => le x y = true) : s.Sublist (stableSort le l) := by
  induction h with
  | slnil => exact .slnil
  | cons a _ ih => exact (ih hs).trans (sublist_insertOrdered le a _)
  | cons_cons a _ ih =>
    obtain ⟨ha, hs⟩ := List.pairwise_cons.1 hs
    exact cons_sublist_insertOrdered (ih hs) ha

/-- A list in order stays as it is. -/
theorem stableSort_eq_self {le : α → α → Bool} {l : List α}
    (h : l.Pairwise fun x y => le x y = true) : stableSort le l = l :=
  ((sublist_stableSort (List.Sublist.refl l) h).eq_of_length (length_stableSort le l).symm).symm

/-- A list whose elements can be told apart in order is sorted in one way only, whatever order they
come in. -/
theorem stableSort_eq_of_perm {le : α → α → Bool}
    (total : ∀ a b, le a b = true ∨ le b a = true)
    (trans : ∀ a b c, le a b = true → le b c = true → le a c = true) {l l' : List α}
    (h : l.Perm l')
    (antisymm : ∀ a ∈ l, ∀ b ∈ l, le a b = true → le b a = true → a = b) :
    stableSort le l = stableSort le l' := by
  have hperm : (stableSort le l).Perm (stableSort le l') :=
    (perm_stableSort le l).trans (h.trans (perm_stableSort le l').symm)
  refine hperm.eq_of_pairwise (fun a b ha hb => ?_) (pairwise_stableSort total trans l)
    (pairwise_stableSort total trans l')
  exact antisymm a (mem_stableSort.1 ha) b (h.mem_iff.2 (mem_stableSort.1 hb))

/-- **A list in the order of `le`** that is made of another one by sorting it: whatever stands in
order there stands in the same order here. -/
structure StableOrder (le : α → α → Bool) (l sorted : List α) : Prop where
  perm : sorted.Perm l
  ordered : sorted.Pairwise fun x y => le x y = true
  stable : ∀ s : List α, s.Sublist l → (s.Pairwise fun x y => le x y = true) → s.Sublist sorted

/-- The order of the elements of the list is all that matters. -/
theorem StableOrder.congr {le le' : α → α → Bool} {l sorted : List α} (h : StableOrder le l sorted)
    (hle : ∀ a ∈ l, ∀ b ∈ l, le a b = le' a b) : StableOrder le' l sorted where
  perm := h.perm
  ordered := h.ordered.imp_of_mem fun ha hb hab =>
    hle _ (h.perm.mem_iff.1 ha) _ (h.perm.mem_iff.1 hb) ▸ hab
  stable s hs hordered := h.stable s hs (hordered.imp_of_mem fun ha hb hab =>
    (hle _ (hs.subset ha) _ (hs.subset hb)).trans hab)

theorem stableOrder_stableSort {le : α → α → Bool}
    (total : ∀ a b, le a b = true ∨ le b a = true)
    (trans : ∀ a b c, le a b = true → le b c = true → le a c = true) (l : List α) :
    StableOrder le l (stableSort le l) where
  perm := perm_stableSort le l
  ordered := pairwise_stableSort total trans l
  stable _ h hs := sublist_stableSort h hs

end ViewCompiler
