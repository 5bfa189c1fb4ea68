import Mathlib.Data.List.Nodup
import Mathlib.Data.List.Perm.Subperm
import Mathlib.Order.Bounds.Defs
import ViewCompiler.Resource.Sharing

/-!
# Free names

The search for a name that is not taken tries one name more than are taken. The names it tries are
pairwise different, so they cannot all be taken and the search ends at a free one
(`Name.firstFree_not_mem`). What makes the tried names differ is the number at their end
(`Name.suffixed_injective`): different numbers have different decimal texts.
-/

namespace ViewCompiler

namespace Name

/-- Numbers are told apart by their decimal texts. -/
theorem repr_injective : Function.Injective Nat.repr := fun a b h ↦ by
  have hdigits : Nat.toDigits 10 a = Nat.toDigits 10 b := by
    simpa [Nat.repr] using congrArg String.toList h
  rw [← Nat.ofDigitChars_ten_toDigits (n := a), hdigits, Nat.ofDigitChars_ten_toDigits]

/-- A base with different numbers gives different names. -/
theorem suffixed_injective (base : String) : Function.Injective (suffixed base) := fun a b h ↦ by
  have hrepr : base ++ "_" ++ Nat.repr a = base ++ "_" ++ Nat.repr b := h
  have hlist := congrArg String.toList hrepr
  simp only [String.toList_append, List.append_cancel_left_eq] at hlist
  exact repr_injective (String.toList_injective hlist)

/-- And none of these names is the base itself. -/
theorem suffixed_ne_self (base : String) (n : Nat) : suffixed base n ≠ base := fun h ↦ by
  have hlength := congrArg (fun s ↦ s.toList.length) h
  simp only [suffixed, String.toList_append, List.length_append] at hlength
  have hbar : "_".toList.length = 1 := rfl
  omega

/-- Among the names that are tried one is free. -/
theorem exists_free {name : Nat → String} (hname : Function.Injective name) (taken : List String)
    (k : Nat) : ∃ i < taken.length + 1, name (k + i) ∉ taken := by
  by_contra hall
  push Not at hall
  have hnodup : ((List.range (taken.length + 1)).map fun i ↦ name (k + i)).Nodup :=
    List.nodup_range.map fun i j h ↦ Nat.add_left_cancel (hname h)
  have hsubset : ((List.range (taken.length + 1)).map fun i ↦ name (k + i)) ⊆ taken := by
    intro s hs
    obtain ⟨i, hi, rfl⟩ := List.mem_map.1 hs
    exact hall i (List.mem_range.1 hi)
  have hle := (List.subperm_of_subset hnodup hsubset).length_le
  rw [List.length_map, List.length_range] at hle
  omega

theorem firstFree_snd (taken : List String) (name : Nat → String) (k : Nat) :
    (firstFree taken name k).2 = name (firstFree taken name k).1 := by
  unfold firstFree
  split <;> rfl

/-- **The search ends at the first free name.** -/
theorem isLeast_firstFree {name : Nat → String} (hname : Function.Injective name)
    (taken : List String) (k : Nat) :
    IsLeast {n | k ≤ n ∧ name n ∉ taken} (firstFree taken name k).1 := by
  unfold firstFree
  split
  · rename_i i hi
    obtain ⟨hfree, -, htaken⟩ := List.find?_range_eq_some.1 hi
    refine ⟨⟨Nat.le_add_right k i, by simpa using hfree⟩, fun n ⟨hle, hn⟩ ↦ ?_⟩
    -- a free name with a smaller number would have been found before
    by_contra hlt
    obtain ⟨j, rfl⟩ := Nat.exists_eq_add_of_le hle
    have hj := htaken j (by omega)
    simp [hn] at hj
  · rename_i hnone
    obtain ⟨i, hi, hfree⟩ := exists_free hname taken k
    have htaken := List.find?_eq_none.1 hnone i (List.mem_range.2 hi)
    simp [hfree] at htaken

/-- **The search ends at a free name.** -/
theorem firstFree_not_mem {name : Nat → String} (hname : Function.Injective name)
    (taken : List String) (k : Nat) : (firstFree taken name k).2 ∉ taken := by
  rw [firstFree_snd]
  exact (isLeast_firstFree hname taken k).1.2

end Name

namespace Sharing

/-- The names of the styles of one tag differ. -/
theorem nameAt_injective (base : String) : Function.Injective (nameAt base) := fun a b h ↦ by
  simp only [nameAt] at h
  split at h <;> split at h
  · omega
  · exact absurd h.symm (Name.suffixed_ne_self base b)
  · exact absurd h (Name.suffixed_ne_self base a)
  · exact Name.suffixed_injective base h

end Sharing

end ViewCompiler
