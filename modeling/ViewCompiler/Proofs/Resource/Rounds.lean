import ViewCompiler.Proofs.Resource.FreeName
import ViewCompiler.Proofs.Resource.Lineage
import ViewCompiler.Proofs.Resource.Moved

/-!
# The rounds on one tag

The work on the elements of one tag is a loop, and `Sharing.InRound` is its invariant: every element
of the group is split between what it keeps and the lineage that its reference leads to, and nothing
else is touched. It needs no fact about the order of the rounds. Each round puts one style in front
of the lineages of the covered elements (`Sharing.InRound.promote`), and this is sound for all of
them at once because they refer to the same style before the round (`Promotable.sameTip`): the one
parent of the new style is right for every one of them.

Styles are found by name, so an older lineage must not change when a style is added. It does not,
because a new name differs from all names taken before, also those of other tags.
-/

namespace ViewCompiler

namespace Sharing

/-! ### One round -/

/-- The lineage that a reference to a style leads to, with different names; none without a
reference. -/
def LeadsTo (styles : List StyleEntry) : Option String → List StyleEntry → Prop
  | none, l => l = []
  | some name, l => Lineage styles name l ∧ (l.map StyleEntry.name).Nodup

theorem LeadsTo.append {styles : List StyleEntry} {tip : Option String} {l : List StyleEntry}
    (h : LeadsTo styles tip l) (more : List StyleEntry) : LeadsTo (styles ++ more) tip l := by
  cases tip with
  | none => exact h
  | some name => exact ⟨h.1.append more, h.2⟩

theorem LeadsTo.subset {styles : List StyleEntry} {tip : Option String} {l : List StyleEntry}
    (h : LeadsTo styles tip l) : l ⊆ styles := by
  cases tip with
  | none =>
    rw [show l = [] from h]
    exact List.nil_subset _
  | some name => exact h.1.subset

/-- A reference leads to one lineage only, the one that the look-up finds. -/
theorem LeadsTo.unique {styles : List StyleEntry} {tip : Option String} {l l' : List StyleEntry}
    (h : LeadsTo styles tip l) (h' : LeadsTo styles tip l') : l = l' := by
  cases tip with
  | none => exact Eq.trans h (Eq.symm h')
  | some name =>
    have hchain := h.1.chain_eq (s := ⟨styles, .empty, .empty⟩) h.2
    exact hchain.symm.trans (h'.1.chain_eq (s := ⟨styles, .empty, .empty⟩) h'.2)

/-- A new style leads to itself and on to where its parent leads. -/
theorem LeadsTo.cons {styles : List StyleEntry} {e : StyleEntry} {l : List StyleEntry}
    (h : LeadsTo styles e.parent l) (hfresh : ∀ e' ∈ styles, e'.name ≠ e.name) :
    LeadsTo (styles ++ [e]) (some e.name) (e :: l) := by
  have hself := named?_append_self hfresh
  cases hparent : e.parent with
  | none =>
    rw [hparent] at h
    obtain rfl : l = [] := h
    exact ⟨.last hself hparent, by simp⟩
  | some parent =>
    rw [hparent] at h
    refine ⟨.cons hself hparent (h.1.append [e]), List.nodup_cons.2 ⟨fun hmem ↦ ?_, h.2⟩⟩
    obtain ⟨e', he', hname⟩ := List.mem_map.1 hmem
    exact hfresh e' (h.1.subset he') hname

/-- What of an element's attributes can be shared. -/
def shareable (config : SharingConfig) (m : Member) : SortedMap String String :=
  m.attributes.filter fun k _ ↦ !config.excludes k

/-- Where the work on one tag stands: each element of the group apart, and nothing else touched. -/
structure InRound (config : SharingConfig) (group : List Member) (start : Sharing)
    (p : Progress) : Prop where
  taken : ∀ e ∈ p.result.styles, e.name ∈ p.taken
  members : ∀ m ∈ group, ∃ remaining l, p.remaining.get? m.id = some remaining ∧
    LeadsTo p.result.styles (p.tips.get? m.id) l ∧
    Moved (shareable config m) remaining l (p.result.removals.get? m.id)
  own : ∀ id, p.remaining.get? id ≠ none → id ∈ group.map Member.id
  tips : ∀ id, p.tips.get? id ≠ none → id ∈ group.map Member.id
  styles : start.styles <+: p.result.styles
  removals : ∀ id ∉ group.map Member.id, p.result.removals.get? id = start.removals.get? id
  assignments : p.result.assignments = start.assignments

section Promote

variable (base : String) (p : Progress) (c : Candidate)

/-- The style that a candidate becomes. -/
def newStyle : StyleEntry where
  name := (Name.firstFree p.taken (nameAt base) p.counter).2
  parent := c.coverage.head?.bind p.tips.get?
  attributes := c.attributes

theorem promote_taken : (promote base p c).taken = (newStyle base p c).name :: p.taken := rfl

theorem promote_styles :
    (promote base p c).result.styles = p.result.styles ++ [newStyle base p c] := rfl

theorem newStyle_fresh : (newStyle base p c).name ∉ p.taken :=
  Name.firstFree_not_mem (nameAt_injective base) p.taken p.counter

variable {c}

theorem promote_remaining (hc : c.coverage.Nodup) (id : NodeId) :
    (promote base p c).remaining.get? id = if id ∈ c.coverage then
      (p.remaining.get? id).map (dropAttributes c.attributes) else p.remaining.get? id := by
  refine SortedMap.get?_foldl_update (Option.map (dropAttributes c.attributes))
    (fun m k i ↦ ?_) hc p.remaining id
  cases h : m.get? k with
  | none =>
    by_cases hi : i = k
    · subst hi; simp [h]
    · simp [hi]
  | some attributes =>
    by_cases hi : i = k
    · subst hi; simp [h]
    · simp [hi]

theorem promote_removals (hc : c.coverage.Nodup) (id : NodeId) :
    (promote base p c).result.removals.get? id = if id ∈ c.coverage then
      some ((p.result.removals.get? id).getD [] ++ c.attributes.map Prod.fst)
      else p.result.removals.get? id := by
  refine SortedMap.get?_foldl_update
    (fun lost ↦ some (lost.getD [] ++ c.attributes.map Prod.fst))
    (fun m k i ↦ ?_) hc p.result.removals id
  by_cases hi : i = k
  · subst hi; simp [SortedMap.getD]
  · simp [hi]

theorem promote_tips (hc : c.coverage.Nodup) (id : NodeId) :
    (promote base p c).tips.get? id =
      if id ∈ c.coverage then some (newStyle base p c).name else p.tips.get? id := by
  refine SortedMap.get?_foldl_update (fun _ ↦ some (newStyle base p c).name)
    (fun m k i ↦ ?_) hc p.tips id
  exact SortedMap.get?_insert m k i _

end Promote

section Round

variable {config : SharingConfig} {group : List Member} {start : Sharing} {p : Progress}
  {c : Candidate}

/-- All covered elements refer to the parent of the new style, if they have a style at all. -/
theorem parent_newStyle (hc : Promotable p.remaining p.tips c) (base : String) {id : NodeId}
    (hid : id ∈ c.coverage) : (newStyle base p c).parent = p.tips.get? id := by
  obtain ⟨first, r, hcoverage⟩ := List.exists_cons_of_ne_nil (List.ne_nil_of_mem hid)
  have hfirst : first ∈ c.coverage := hcoverage ▸ List.mem_cons_self
  have hsame := hc.sameTip first hfirst id hid
  simp [newStyle, hcoverage, hsame]

theorem InRound.name_ne_newStyle (h : InRound config group start p) (base : String) (c : Candidate)
    {e : StyleEntry} (he : e ∈ p.result.styles) : e.name ≠ (newStyle base p c).name :=
  fun heq ↦ newStyle_fresh base p c (heq ▸ h.taken e he)

/-- Candidates cover elements of the tag only. -/
theorem InRound.covered (h : InRound config group start p)
    (hc : Promotable p.remaining p.tips c) : ∀ id ∈ c.coverage, id ∈ group.map Member.id :=
  fun id hid ↦ by
    obtain ⟨attributes, hattributes, -⟩ := hc.carried id hid
    exact h.own id (by simp [hattributes])

/-- **The lineages after a round**: the new style comes in front of those of the covered
elements. -/
theorem InRound.leads_promote (h : InRound config group start p)
    (hc : Promotable p.remaining p.tips c) (base : String) {id : NodeId} {l : List StyleEntry}
    (hleads : LeadsTo p.result.styles (p.tips.get? id) l) :
    LeadsTo (Sharing.promote base p c).result.styles ((Sharing.promote base p c).tips.get? id)
      (if id ∈ c.coverage then newStyle base p c :: l else l) := by
  rw [promote_tips base p hc.nodup_coverage, promote_styles]
  split
  · rename_i hid
    refine LeadsTo.cons ?_ fun e he ↦ h.name_ne_newStyle base c he
    rwa [parent_newStyle hc base hid]
  · exact hleads.append _

/-- **One round keeps the invariant.** -/
theorem InRound.promote (h : InRound config group start p)
    (hc : Promotable p.remaining p.tips c) (base : String) :
    InRound config group start (promote base p c) where
  taken e he := by
    rw [promote_styles, List.mem_append, List.mem_singleton] at he
    rw [promote_taken]
    rcases he with he | rfl
    · exact List.mem_cons_of_mem _ (h.taken e he)
    · exact List.mem_cons_self
  members m hm := by
    obtain ⟨remaining, l, hremaining, hleads, hmoved⟩ := h.members m hm
    have hleads := h.leads_promote hc base hleads
    rw [promote_remaining base p hc.nodup_coverage, promote_removals base p hc.nodup_coverage]
    by_cases hcovered : m.id ∈ c.coverage
    · rw [if_pos hcovered] at hleads
      rw [if_pos hcovered, if_pos hcovered]
      obtain ⟨attributes, hattributes, hpairs⟩ := hc.carried m.id hcovered
      obtain rfl := Option.some.inj (hremaining.symm.trans hattributes)
      refine ⟨_, newStyle base p c :: l, by rw [hremaining]; rfl, hleads, ?_⟩
      exact hmoved.promote (e := newStyle base p c) hpairs hc.nodup_keys
    · rw [if_neg hcovered] at hleads
      rw [if_neg hcovered, if_neg hcovered]
      exact ⟨remaining, l, hremaining, hleads, hmoved⟩
  own id hid := by
    rw [promote_remaining base p hc.nodup_coverage] at hid
    refine h.own id fun hnone ↦ hid ?_
    rw [hnone, Option.map_none, ite_self]
  tips id hid := by
    rw [promote_tips base p hc.nodup_coverage] at hid
    split at hid
    · rename_i hcovered
      exact h.covered hc id hcovered
    · exact h.tips id hid
  styles := by
    rw [promote_styles]
    exact h.styles.trans (List.prefix_append _ _)
  removals id hid := by
    have hcovered : id ∉ c.coverage := fun hcovered ↦ hid (h.covered hc id hcovered)
    rw [promote_removals base p hc.nodup_coverage, if_neg hcovered, h.removals id hid]
  assignments := h.assignments

/-- **All rounds keep the invariant.** -/
theorem InRound.promoteAll (base : String) (n fuel : Nat) (h : InRound config group start p) :
    InRound config group start (promoteAll base n fuel p) := by
  induction fuel generalizing p with
  | zero => exact h
  | succ fuel ih =>
    rw [Sharing.promoteAll]
    split
    · exact h
    · rename_i c hbest
      exact ih (h.promote (promotable_of_best? hbest) base)

end Round

end Sharing

end ViewCompiler
