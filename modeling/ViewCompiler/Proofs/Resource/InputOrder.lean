import ViewCompiler.Proofs.Resource.Lossless

/-!
# Sharing does not depend on the order of the elements

The elements come in some order, and the styles that are made of them are the same for every order
(`Sharing.ofMembers_eq_of_perm`), with the same names, parents and removals. This rests on the first
step alone: elements are taken together by tag, the tags in order, and the elements of a tag sorted
by their numbers. If no two elements have the same number they can be sorted in one way only
(`Sharing.groups_eq_of_perm`), and nothing that comes later looks at the list itself.

That the numbers differ is needed. Of two elements with the same number the sort keeps the order,
and the later one counts.
-/

namespace ViewCompiler

namespace Sharing

variable {members members' : List Member}

/-- **Elements of different numbers are sorted in one way only.** -/
theorem stableSort_id_eq_of_perm (h : members.Perm members')
    (hnodup : (members.map Member.id).Nodup) :
    stableSort (fun a b : Member ↦ a.id ≤ b.id) members =
      stableSort (fun a b : Member ↦ a.id ≤ b.id) members' := by
  refine stableSort_eq_of_perm (fun a b ↦ ?_) (fun a b c hab hbc ↦ ?_) h
    fun a ha b hb hab hba ↦ ?_
  · simpa using Nat.le_total a.id b.id
  · simp only [decide_eq_true_eq] at hab hbc ⊢
    exact Nat.le_trans hab hbc
  · simp only [decide_eq_true_eq] at hab hba
    exact List.inj_on_of_nodup_map hnodup ha hb (Nat.le_antisymm hab hba)

/-- The tags are in order. -/
theorem ascending_groups (members : List Member) :
    (groups members).Pairwise fun a b ↦ compare a.1 b.1 = .lt :=
  List.pairwise_map.2 (SortedMap.ascending _)

/-- **The groups do not depend on the order of the elements.** -/
theorem groups_eq_of_perm (h : members.Perm members') (hnodup : (members.map Member.id).Nodup) :
    groups members = groups members' := by
  have hmem : ∀ e, e ∈ groups members ↔ e ∈ groups members' := fun ⟨tag, group⟩ ↦ by
    have htag : (∃ m ∈ members, m.tag = tag) ↔ ∃ m ∈ members', m.tag = tag := by
      simp only [h.mem_iff]
    have hsort := stableSort_id_eq_of_perm (h.filter fun m ↦ m.tag = tag)
      (hnodup.sublist (List.filter_sublist.map _))
    rw [mem_groups_iff, mem_groups_iff, htag, hsort]
  have hsame : (⟨groups members, ascending_groups members⟩ : SortedMap String (List Member)) =
      ⟨groups members', ascending_groups members'⟩ := SortedMap.ext_entries hmem
  exact congrArg SortedMap.entries hsame

/-- **The styles of a list of elements are the same in whatever order the elements come**, and so is
what every element refers to and loses. -/
theorem ofMembers_eq_of_perm (config : SharingConfig) (h : members.Perm members')
    (hnodup : (members.map Member.id).Nodup) :
    ofMembers config members = ofMembers config members' := by
  rw [ofMembers, ofMembers, groups_eq_of_perm h hnodup]

/-- Elements of two tags whose styles are named alike, in no order. -/
def mixedTexts : List Member :=
  let look := .ofList [("android:alpha", "0.5"), ("android:width", "80dp")]
  [⟨7, "text", look⟩, ⟨2, "Text", look⟩, ⟨5, "text", look⟩, ⟨3, "Text", look⟩]

/-- The free name goes to the tag that comes first in order, whichever element comes first. -/
theorem ofMembers_eq_of_perm_mixedTexts :
    mixedTexts.Perm mixedTexts.reverse ∧ (mixedTexts.map Member.id).Nodup ∧
      ofMembers .default mixedTexts = ofMembers .default mixedTexts.reverse ∧
      (ofMembers .default mixedTexts.reverse).assignments.entries =
        [(2, "Text"), (3, "Text"), (5, "Text_1"), (7, "Text_1")] := by
  have hperm : mixedTexts.Perm mixedTexts.reverse := mixedTexts.reverse_perm.symm
  have hnodup : (mixedTexts.map Member.id).Nodup := by decide
  exact ⟨hperm, hnodup, ofMembers_eq_of_perm .default hperm hnodup, by decide +kernel⟩

end Sharing

end ViewCompiler
