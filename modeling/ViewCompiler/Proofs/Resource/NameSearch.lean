import ViewCompiler.Proofs.Resource.Ending
import ViewCompiler.Proofs.Resource.FreeName

/-!
# Names given one after the other

A name is claimed for an entry by trying the base and then the base with one number after the other,
and for a style by trying numbers from a counter on. Neither search has a bound of its own. Both end
at the first name that is free (`Name.isLeast_firstFree`), because finitely many names are taken and
the names that are tried differ.

Styles are named by a state that passes from one search to the next, `Sharing.Naming`. Its names are
shared by all tags while the counter starts again with each, so two searches may try the same names.
That no name is given twice (`Sharing.Naming.nodup_giveAll`) rests on the names alone, and is stated
for searches with any bases and counters. The names of all styles that are made for some elements
are given by such searches (`Sharing.exists_namedBy_ofMembers`).
-/

namespace ViewCompiler

/-! ### Claimed names -/

namespace Name

variable (taken : List String) (base : String) (suffix : Bool)

/-- **A base is claimed or a number is put behind it**, the least from one on with which the name is
free. -/
theorem claim_cases :
    (suffix = false ∧ base ∉ taken) ∧ claim taken base suffix = base ∨
      ¬(suffix = false ∧ base ∉ taken) ∧
        ∃ n, IsLeast {n | 1 ≤ n ∧ suffixed base n ∉ taken} n ∧
          claim taken base suffix = suffixed base n := by
  by_cases h : suffix = false ∧ base ∉ taken
  · exact .inl ⟨h, by rw [claim, if_pos (by simpa using h)]⟩
  · refine .inr ⟨h, _, isLeast_firstFree (suffixed_injective base) taken 1, ?_⟩
    rw [claim, if_neg (by simpa using h), firstFree_snd]

theorem claim_eq_base_iff : claim taken base suffix = base ↔ suffix = false ∧ base ∉ taken := by
  rcases claim_cases taken base suffix with ⟨h, heq⟩ | ⟨h, n, -, heq⟩
  · exact iff_of_true heq h
  · exact iff_of_false (fun hbase ↦ suffixed_ne_self base n (heq.symm.trans hbase)) h

end Name

namespace Sharing

/-! ### Names of styles -/

/-- Where the naming of styles stands: the number to try next, and the names that are taken. -/
structure Naming where
  counter : Nat
  taken : List String

namespace Naming

/-- Gives a name that is made from a base. -/
def give (n : Naming) (base : String) : String × Naming :=
  let (k, name) := Name.firstFree n.taken (nameAt base) n.counter
  (name, ⟨k + 1, name :: n.taken⟩)

/-- The names that are given one after the other, each for a base and with a counter of its own. -/
def giveAll : List (String × Nat) → List String → List String
  | [], _ => []
  | (base, counter) :: calls, taken =>
    let (name, next) := give ⟨counter, taken⟩ base
    name :: giveAll calls next.taken

variable (n : Naming) (base : String) (calls calls' : List (String × Nat)) (taken : List String)

/-- **The first free name is given** from the counter on. It is taken then, and the counter has
passed all numbers that have been tried. -/
theorem exists_give_eq :
    ∃ k, IsLeast {k | n.counter ≤ k ∧ nameAt base k ∉ n.taken} k ∧
      n.give base = (nameAt base k, ⟨k + 1, nameAt base k :: n.taken⟩) := by
  refine ⟨_, Name.isLeast_firstFree (nameAt_injective base) n.taken n.counter, ?_⟩
  rw [← Name.firstFree_snd n.taken (nameAt base) n.counter]
  rfl

theorem give_taken : (n.give base).2.taken = (n.give base).1 :: n.taken := rfl

theorem give_not_mem : (n.give base).1 ∉ n.taken :=
  Name.firstFree_not_mem (nameAt_injective base) n.taken n.counter

theorem giveAll_append :
    giveAll (calls ++ calls') taken =
      giveAll calls taken ++ giveAll calls' ((giveAll calls taken).reverse ++ taken) := by
  induction calls generalizing taken with
  | nil => rfl
  | cons call calls ih => simp [giveAll, ih, give_taken]

/-- **No name is given twice**, and none that was taken before. -/
theorem nodup_giveAll : (giveAll calls taken).Nodup ∧ (giveAll calls taken).Disjoint taken := by
  induction calls generalizing taken with
  | nil => exact ⟨.nil, List.disjoint_nil_left taken⟩
  | cons call calls ih =>
    obtain ⟨base, counter⟩ := call
    obtain ⟨hnodup, hdisjoint⟩ := ih (give ⟨counter, taken⟩ base).2.taken
    rw [give_taken, List.disjoint_cons_right] at hdisjoint
    exact ⟨List.nodup_cons.2 ⟨hdisjoint.1, hnodup⟩,
      List.disjoint_cons_left.2 ⟨give_not_mem ⟨counter, taken⟩ base, hdisjoint.2⟩⟩

end Naming

/-! ### Names of all styles -/

/-- Where the naming stands in the work on a tag. -/
def Progress.naming (p : Progress) : Naming := ⟨p.counter, p.taken⟩

/-- **A candidate becomes a style with the name that is given next.** -/
theorem naming_promote (base : String) (p : Progress) (c : Candidate) :
    (promote base p c).naming = (p.naming.give base).2 ∧
      (promote base p c).result.styles.map StyleEntry.name =
        p.result.styles.map StyleEntry.name ++ [(p.naming.give base).1] :=
  ⟨rfl, by rw [promote_styles, List.map_append]; rfl⟩

/-- Between two states of the work on elements, styles have been added under names given one after
the other. -/
structure NamedBy (calls : List (String × Nat)) (taken : List String) (s : Sharing)
    (taken' : List String) (s' : Sharing) : Prop where
  styles : s'.styles.map StyleEntry.name =
    s.styles.map StyleEntry.name ++ Naming.giveAll calls taken
  taken : taken' = (Naming.giveAll calls taken).reverse ++ taken

namespace NamedBy

variable {calls calls' : List (String × Nat)} {taken taken' taken'' : List String}
  {s s' s'' : Sharing}

theorem refl (taken : List String) (s : Sharing) : NamedBy [] taken s taken s :=
  ⟨(List.append_nil _).symm, rfl⟩

theorem trans (h : NamedBy calls taken s taken' s') (h' : NamedBy calls' taken' s' taken'' s'') :
    NamedBy (calls ++ calls') taken s taken'' s'' where
  styles := by rw [h'.styles, h.styles, h.taken, Naming.giveAll_append, List.append_assoc]
  taken := by
    rw [h'.taken, h.taken, Naming.giveAll_append, List.reverse_append, List.append_assoc]

/-- A round gives one name. -/
theorem promote (base : String) (p : Progress) (c : Candidate) :
    NamedBy [(base, p.counter)] p.taken p.result (promote base p c).taken
      (promote base p c).result where
  styles := (naming_promote base p c).2
  taken := rfl

end NamedBy

theorem Rounds.exists_namedBy {base : String} {n : Nat} {p q : Progress}
    (h : Rounds base n p q) : ∃ calls, NamedBy calls p.taken p.result q.taken q.result := by
  induction h with
  | stop => exact ⟨[], .refl _ _⟩
  | @more p q c _ _ ih =>
    obtain ⟨calls, hcalls⟩ := ih
    exact ⟨_, (NamedBy.promote base p c).trans hcalls⟩

theorem Runs.exists_namedBy {config : SharingConfig} {gs : List (String × List Member)}
    {taken taken' : List String} {s s' : Sharing} (h : Runs config gs taken s taken' s') :
    ∃ calls, NamedBy calls taken s taken' s' := by
  induction h with
  | nil => exact ⟨[], .refl _ _⟩
  | @cons tag group gs taken taken' s s' p rounds _ ih =>
    obtain ⟨calls, hcalls⟩ := rounds.exists_namedBy
    obtain ⟨calls', hcalls'⟩ := ih
    have hround : NamedBy calls taken s p.taken p.conclude := ⟨hcalls.styles, hcalls.taken⟩
    exact ⟨_, hround.trans hcalls'⟩

/-- **All styles are named one after the other.** -/
theorem exists_namedBy_ofMembers (config : SharingConfig) (members : List Member) :
    ∃ calls, (ofMembers config members).styles.map StyleEntry.name = Naming.giveAll calls [] := by
  cases henabled : config.enabled with
  | false =>
    rw [ofMembers, henabled]
    exact ⟨[], rfl⟩
  | true =>
    obtain ⟨taken, hruns⟩ := runs_ofMembers henabled members
    obtain ⟨calls, hcalls⟩ := hruns.exists_namedBy
    exact ⟨calls, hcalls.styles⟩

end Sharing

namespace Name

/-- **A search for a name ends at a free one.** Whatever names are taken, a base is claimed itself
exactly if no number is asked for and it is free, and otherwise with the least number from one on
with which it is free. A style is given the first free name from the counter on, which is taken
then, and the counter passes all numbers that have been tried. Over any searches that share what is
taken no name is given twice, and none that was taken before them. The names of all styles that are
made for some elements are given in this way. -/
theorem search_ends_at_free_name :
    (∀ taken base suffix,
      (claim taken base suffix = base ↔ suffix = false ∧ base ∉ taken) ∧
      (claim taken base suffix = base ∨ ∃ n, IsLeast {n | 1 ≤ n ∧ suffixed base n ∉ taken} n ∧
        claim taken base suffix = suffixed base n)) ∧
    (∀ (n : Sharing.Naming) (base : String), ∃ k,
      IsLeast {k | n.counter ≤ k ∧ Sharing.nameAt base k ∉ n.taken} k ∧
      n.give base = (Sharing.nameAt base k, ⟨k + 1, Sharing.nameAt base k :: n.taken⟩)) ∧
    (∀ calls taken, (Sharing.Naming.giveAll calls taken).Nodup ∧
      (Sharing.Naming.giveAll calls taken).Disjoint taken) ∧
    (∀ base p c, (Sharing.promote base p c).naming = (p.naming.give base).2 ∧
      (Sharing.promote base p c).result.styles.map StyleEntry.name =
        p.result.styles.map StyleEntry.name ++ [(p.naming.give base).1]) ∧
    ∀ config members, ∃ calls,
      (Sharing.ofMembers config members).styles.map StyleEntry.name =
        Sharing.Naming.giveAll calls [] := by
  refine ⟨fun taken base suffix ↦ ⟨claim_eq_base_iff taken base suffix, ?_⟩,
    Sharing.Naming.exists_give_eq, Sharing.Naming.nodup_giveAll, Sharing.naming_promote,
    Sharing.exists_namedBy_ofMembers⟩
  exact (claim_cases taken base suffix).imp And.right And.right

end Name

end ViewCompiler
