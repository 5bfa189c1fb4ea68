import ViewCompiler.Proofs.Resource.Choice
import ViewCompiler.Proofs.Resource.Lossless

/-!
# The rounds come to an end

A tag is worked on as long as a candidate qualifies, and no number of rounds is set beforehand.
`Sharing.Rounds` says so: it relates where the work on a tag starts to where no candidate qualifies
any more, and `Sharing.Runs` puts the tags one after another. Every round takes an attribute off an
element, and what elements hold is finite (`Sharing.length_held_promote_lt`), so all work ends, and
the bound that `Sharing.shareGroup` counts down is never reached (`Sharing.runs_ofMembers`).

What is true of an element in the end has been settled in the work on its tag: later tags have other
elements, and styles only come behind those that are there. `Sharing.Work.Done` is what the work on
one tag looks like from the end of all work, and it is all that the statements on the styles of a
tag need to know of the other tags.
-/

namespace ViewCompiler

namespace Sharing

/-! ### What one round changes -/

section Round

variable {config : SharingConfig} {group : List Member} {start : Sharing} {p : Progress}
  {c : Candidate}

/-- **A round takes the attributes of the candidate off the covered elements**, and no others. -/
theorem mem_holders_promote (hc : Promotable p.remaining p.tips c) (base : String) {id : NodeId}
    {pair : String × String} : id ∈ holders (promote base p c).remaining pair ↔
      id ∈ holders p.remaining pair ∧ ¬(id ∈ c.coverage ∧ pair ∈ c.attributes) := by
  rw [mem_holders, mem_holders, promote_remaining base p hc.nodup_coverage]
  by_cases hid : id ∈ c.coverage
  · obtain ⟨attributes, hget, hpairs⟩ := hc.carried id hid
    -- with the key of an attribute of the candidate, a held attribute is that one
    have hkey : attributes.get? pair.1 = some pair.2 →
        (pair.1 ∈ c.attributes.map Prod.fst ↔ pair ∈ c.attributes) := fun hv ↦ by
      refine ⟨fun hk ↦ ?_, fun hp ↦ List.mem_map_of_mem hp⟩
      obtain ⟨q, hq, hkeys⟩ := List.mem_map.1 hk
      have hvalues := hpairs q hq
      rw [hkeys, hv, Option.some.injEq] at hvalues
      rwa [Prod.ext hkeys.symm hvalues]
    have hleft : (dropAttributes c.attributes attributes).get? pair.1 = some pair.2 ↔
        attributes.get? pair.1 = some pair.2 ∧ pair.1 ∉ c.attributes.map Prod.fst := by
      rw [get?_dropAttributes]
      split <;> simp [*]
    rw [if_pos hid, hget, Option.map_some]
    simp only [Option.some.injEq, exists_eq_left', hid, true_and]
    exact hleft.trans (and_congr_right fun hv ↦ not_congr (hkey hv))
  · simp [hid]

/-- A reference leads somewhere. -/
theorem InRound.exists_leads (h : InRound config group start p) (id : NodeId) :
    ∃ l, LeadsTo p.result.styles (p.tips.get? id) l := by
  by_cases hid : id ∈ group.map Member.id
  · obtain ⟨m, hm, rfl⟩ := List.mem_map.1 hid
    obtain ⟨-, l, -, hleads, -⟩ := h.members m hm
    exact ⟨l, hleads⟩
  · have htip : p.tips.get? id = none := by
      by_contra hsome
      exact hid (h.tips id hsome)
    exact ⟨[], by rw [htip]; rfl⟩

/-- The name of a new style is none that is referred to. -/
theorem InRound.tip_ne_newStyle (h : InRound config group start p) (base : String) (c : Candidate)
    (id : NodeId) : p.tips.get? id ≠ some (newStyle base p c).name := fun htip ↦ by
  obtain ⟨l, hleads⟩ := h.exists_leads id
  rw [htip] at hleads
  obtain ⟨e, -, -, he, hname⟩ := hleads.1.exists_head
  exact h.name_ne_newStyle base c he hname

/-- Elements that refer to the same style after a round did so before. -/
theorem InRound.tip_of_promote (h : InRound config group start p)
    (hc : Promotable p.remaining p.tips c) (base : String) {i j : NodeId}
    (hsame : (Sharing.promote base p c).tips.get? i = (Sharing.promote base p c).tips.get? j) :
    p.tips.get? i = p.tips.get? j := by
  rw [promote_tips base p hc.nodup_coverage, promote_tips base p hc.nodup_coverage] at hsame
  split at hsame <;> split at hsame
  · exact hc.sameTip i ‹_› j ‹_›
  · exact absurd hsame.symm (h.tip_ne_newStyle base c j)
  · exact absurd hsame (h.tip_ne_newStyle base c i)
  · exact hsame

/-- **No part grows in a round.** -/
theorem InRound.length_largestPart_promote_le (h : InRound config group start p)
    (hc : Promotable p.remaining p.tips c) (base : String) (pair : String × String) :
    (largestPart (Sharing.promote base p c).tips
        (holders (Sharing.promote base p c).remaining pair)).length ≤
      (largestPart p.tips (holders p.remaining pair)).length :=
  length_largestPart_le (nodup_holders _ pair) (fun _ hi ↦ ((mem_holders_promote hc base).1 hi).1)
    fun _ _ _ _ hsame ↦ h.tip_of_promote hc base hsame

end Round

/-! ### What elements hold -/

/-- All that elements still have. -/
def held (remaining : Remaining) : List (NodeId × (String × String)) :=
  remaining.entries.flatMap fun e ↦ e.2.entries.map fun pair ↦ (e.1, pair)

theorem mem_held {remaining : Remaining} {id : NodeId} {pair : String × String} :
    (id, pair) ∈ held remaining ↔ id ∈ holders remaining pair := by
  rw [mem_holders, held]
  simp only [List.mem_flatMap, List.mem_map, Prod.mk.injEq, Prod.exists]
  constructor
  · rintro ⟨_, attributes, hid, _, _, hpair, rfl, rfl⟩
    exact ⟨attributes, SortedMap.mem_entries_iff.1 hid, SortedMap.mem_entries_iff.1 hpair⟩
  · rintro ⟨attributes, hid, hpair⟩
    exact ⟨id, attributes, SortedMap.mem_entries_iff.2 hid, pair.1, pair.2,
      SortedMap.mem_entries_iff.2 hpair, rfl, rfl⟩

theorem nodup_held (remaining : Remaining) : (held remaining).Nodup := by
  rw [held, List.nodup_flatMap]
  refine ⟨fun e _ ↦ (nodup_entries e.2).map fun a b h ↦ (Prod.mk.inj h).2, ?_⟩
  refine (List.pairwise_map.1 remaining.nodup_keys).imp fun {a b} hne ↦ ?_
  intro x ha hb
  obtain ⟨_, -, rfl⟩ := List.mem_map.1 ha
  obtain ⟨_, -, heq⟩ := List.mem_map.1 hb
  exact hne (Prod.mk.inj heq).1.symm

theorem foldl_size_eq (remaining : Remaining) (k : Nat) :
    remaining.values.foldl (fun n m ↦ n + m.size) k = k + (held remaining).length := by
  rw [held, SortedMap.values]
  generalize remaining.entries = entries
  induction entries generalizing k with
  | nil => rfl
  | cons e r ih =>
    rw [List.map_cons, List.foldl_cons, ih, List.flatMap_cons, List.length_append,
      List.length_map, Nat.add_assoc]
    rfl

/-- **Every round takes something off an element.** -/
theorem length_held_promote_lt {p : Progress} {n : Nat} {c : Candidate}
    (h : best? p.remaining p.tips n = some c) (base : String) :
    (held (promote base p c).remaining).length < (held p.remaining).length := by
  have hc := promotable_of_best? h
  obtain ⟨-, -, -, -, hattributes⟩ := exists_of_best? h
  obtain ⟨pair, hpair⟩ := List.exists_mem_of_ne_nil _ hattributes
  obtain ⟨first, hfirst⟩ := hc.exists_covered
  obtain ⟨attributes, hget, hpairs⟩ := hc.carried first hfirst
  have hnodup : ((first, pair) :: held (promote base p c).remaining).Nodup := by
    refine List.nodup_cons.2 ⟨fun hmem ↦ ?_, nodup_held _⟩
    exact ((mem_holders_promote hc base).1 (mem_held.1 hmem)).2 ⟨hfirst, hpair⟩
  have hsub : (first, pair) :: held (promote base p c).remaining ⊆ held p.remaining := by
    intro x hx
    rcases List.mem_cons.1 hx with rfl | hx
    · exact mem_held.2 (mem_holders.2 ⟨attributes, hget, hpairs pair hpair⟩)
    · exact mem_held.2 ((mem_holders_promote hc base).1 (mem_held.1 hx)).1
  exact (List.subperm_of_subset hnodup hsub).length_le

/-! ### Rounds without a bound -/

/-- The rounds on a tag with `n` elements, from where the work stands until no candidate
qualifies. -/
inductive Rounds (base : String) (n : Nat) : Progress → Progress → Prop
  /-- No candidate qualifies. -/
  | stop {p : Progress} (none : best? p.remaining p.tips n = none) : Rounds base n p p
  /-- The best candidate becomes a style. -/
  | more {p q : Progress} {c : Candidate} (best : best? p.remaining p.tips n = some c)
      (rest : Rounds base n (promote base p c) q) : Rounds base n p q

namespace Rounds

variable {base : String} {n : Nat} {p q : Progress}

theorem ended (h : Rounds base n p q) : best? q.remaining q.tips n = none := by
  induction h with
  | stop none => exact none
  | more _ _ ih => exact ih

/-- The best candidate decides what the next round is. -/
theorem next (h : Rounds base n p q) {c : Candidate}
    (hbest : best? p.remaining p.tips n = some c) : Rounds base n (promote base p c) q := by
  cases h with
  | stop none => exact absurd (hbest.symm.trans none) (Option.some_ne_none c)
  | more best rest =>
    obtain rfl := Option.some.inj (hbest.symm.trans best)
    exact rest

/-- **What each round keeps is kept by all rounds.** -/
theorem keeps {I : Progress → Prop} (h : Rounds base n p q) (hp : I p)
    (hround : ∀ p c, I p → best? p.remaining p.tips n = some c → I (promote base p c)) : I q := by
  induction h with
  | stop _ => exact hp
  | more best _ ih => exact ih (hround _ _ hp best)

theorem inRound {config : SharingConfig} {group : List Member} {start : Sharing}
    (h : Rounds base n p q) (hp : InRound config group start p) : InRound config group start q :=
  h.keeps hp fun _ _ hround hbest ↦ hround.promote (promotable_of_best? hbest) base

end Rounds

/-- **The rounds end before the bound is reached.** -/
theorem rounds_promoteAll (base : String) (n : Nat) {fuel : Nat} {p : Progress}
    (hfuel : (held p.remaining).length < fuel) : Rounds base n p (promoteAll base n fuel p) := by
  induction fuel generalizing p with
  | zero => exact absurd hfuel (Nat.not_lt_zero _)
  | succ fuel ih =>
    rw [promoteAll]
    split
    · exact .stop ‹_›
    · rename_i c hbest
      have hless := length_held_promote_lt hbest base
      exact .more hbest (ih (by omega))

/-- All work on some tags, from the names and styles before it to those after it. -/
inductive Runs (config : SharingConfig) :
    List (String × List Member) → List String → Sharing → List String → Sharing → Prop
  | nil {taken : List String} {s : Sharing} : Runs config [] taken s taken s
  | cons {tag : String} {group : List Member} {gs : List (String × List Member)}
      {taken taken' : List String} {s s' : Sharing} {p : Progress}
      (rounds : Rounds (baseOfTag tag) group.length (.start config group taken s) p)
      (rest : Runs config gs p.taken p.conclude taken' s') :
      Runs config ((tag, group) :: gs) taken s taken' s'

theorem runs_foldl (config : SharingConfig) (gs : List (String × List Member))
    (acc : List String × Sharing) :
    let result := gs.foldl (fun acc e ↦ shareGroup config e.1 e.2 acc.1 acc.2) acc
    Runs config gs acc.1 acc.2 result.1 result.2 := by
  induction gs generalizing acc with
  | nil => exact .nil
  | cons e r ih =>
    obtain ⟨tag, group⟩ := e
    obtain ⟨taken, s⟩ := acc
    refine .cons (rounds_promoteAll (baseOfTag tag) group.length
      (p := .start config group taken s) ?_) (ih (shareGroup config tag group taken s))
    rw [foldl_size_eq]
    exact Nat.lt_add_of_pos_left Nat.one_pos

/-- **The work on all tags ends**, in the styles of the elements. -/
theorem runs_ofMembers {config : SharingConfig} (henabled : config.enabled = true)
    (members : List Member) :
    ∃ taken, Runs config (groups members) [] empty taken (ofMembers config members) := by
  rw [ofMembers, if_pos henabled]
  exact ⟨_, runs_foldl config (groups members) ([], empty)⟩

/-! ### The work on one tag, seen from the end -/

/-- The work on one tag: what it starts from and where it ends. -/
structure Work where
  tag : String
  group : List Member
  taken : List String
  start : Sharing
  last : Progress

namespace Work

/-- The styles that are made for the tag. -/
def made (w : Work) : List StyleEntry := w.last.result.styles.drop w.start.styles.length

/-- The work on one tag is done, and nothing has changed for its elements since. -/
structure Done (config : SharingConfig) (w : Work) (s : Sharing) : Prop where
  begins : InRound config w.group w.start (.start config w.group w.taken w.start)
  rounds : Rounds (baseOfTag w.tag) w.group.length (.start config w.group w.taken w.start) w.last
  removals : ∀ id ∈ w.group.map Member.id, s.removals.get? id = w.last.result.removals.get? id
  assignments : ∀ id ∈ w.group.map Member.id, s.assignments.get? id = w.last.tips.get? id
  styles : w.last.result.styles <+: s.styles

namespace Done

variable {config : SharingConfig} {w : Work} {s : Sharing}

theorem inRound (h : w.Done config s) : InRound config w.group w.start w.last :=
  h.rounds.inRound h.begins

theorem styles_eq (h : w.Done config s) : w.last.result.styles = w.start.styles ++ w.made := by
  obtain ⟨more, hmore⟩ := h.inRound.styles
  rw [made, ← hmore, List.drop_left]

/-- The styles of an element are those that it has been given in the work on its tag. -/
theorem leads (h : w.Done config s) {id : NodeId} (hid : id ∈ w.group.map Member.id)
    {l : List StyleEntry} (hleads : LeadsTo w.last.result.styles (w.last.tips.get? id) l) :
    LeadsTo s.styles (s.assignments.get? id) l := by
  obtain ⟨more, hmore⟩ := h.styles
  rw [h.assignments id hid, ← hmore]
  exact hleads.append more

end Done

end Work

/-- **All work consists of that on each tag.** -/
theorem Runs.exists_works {config : SharingConfig} {gs : List (String × List Member)}
    {taken taken' : List String} {s s' : Sharing} (h : Runs config gs taken s taken' s') :
    ∀ {done : List Member}, ((done ++ gs.flatMap Prod.snd).map Member.id).Nodup →
      Shared config done taken s → ∃ works : List Work,
        works.map (fun w ↦ (w.tag, w.group)) = gs ∧
        s'.styles = s.styles ++ works.flatMap Work.made ∧ (∀ w ∈ works, w.Done config s') ∧
        ∀ id ∉ (gs.flatMap Prod.snd).map Member.id, s'.removals.get? id = s.removals.get? id ∧
          s'.assignments.get? id = s.assignments.get? id := by
  induction h with
  | nil => exact fun _ _ ↦ ⟨[], rfl, by simp, by simp, fun _ _ ↦ ⟨rfl, rfl⟩⟩
  | @cons tag group gs taken taken' s s' p rounds _ ih =>
    intro done hnodup hshared
    rw [List.flatMap_cons, ← List.append_assoc] at hnodup
    have hsplit := hnodup
    rw [List.map_append, List.nodup_append', List.map_append, List.nodup_append'] at hsplit
    obtain ⟨⟨-, hgroup, hdisjoint⟩, -, hlater⟩ := hsplit
    have hbegins := hshared.inRound hgroup hdisjoint
    have hround := rounds.inRound hbegins
    obtain ⟨works, hgs, hstyles, hdone, hothers⟩ :=
      ih hnodup (hshared.conclude hround hdisjoint)
    -- the elements of this tag are in no later one
    have hkept : ∀ id ∈ group.map Member.id, s'.removals.get? id = p.result.removals.get? id ∧
        s'.assignments.get? id = p.tips.get? id := fun id hid ↦ by
      have hkept := hothers id fun hmem ↦ hlater (List.mem_append_right _ hid) hmem
      rw [hkept.1, hkept.2, get?_conclude hshared hround hdisjoint hid]
      exact ⟨rfl, rfl⟩
    have hfirst : Work.Done config ⟨tag, group, taken, s, p⟩ s' :=
      ⟨hbegins, rounds, fun id hid ↦ (hkept id hid).1, fun id hid ↦ (hkept id hid).2,
        ⟨_, hstyles.symm⟩⟩
    refine ⟨⟨tag, group, taken, s, p⟩ :: works, by rw [List.map_cons, hgs], ?_, ?_, ?_⟩
    · rw [List.flatMap_cons, ← List.append_assoc, ← hfirst.styles_eq]
      exact hstyles
    · intro w hw
      rcases List.mem_cons.1 hw with rfl | hw
      · exact hfirst
      · exact hdone w hw
    · intro id hid
      rw [List.flatMap_cons, List.map_append, List.mem_append, not_or] at hid
      have hkept := get?_conclude_of_not_mem hround hid.1
      rw [(hothers id hid.2).1, (hothers id hid.2).2]
      exact hkept

/-- All work on some elements: for each tag the work on it, and the styles that it makes. -/
structure Worked (config : SharingConfig) (members : List Member) (works : List Work) : Prop where
  groups : works.map (fun w ↦ (w.tag, w.group)) = groups members
  styles : (ofMembers config members).styles = works.flatMap Work.made
  done : ∀ w ∈ works, w.Done config (ofMembers config members)

theorem exists_worked {config : SharingConfig} (henabled : config.enabled = true)
    {members : List Member} (hnodup : (members.map Member.id).Nodup) :
    ∃ works, Worked config members works := by
  obtain ⟨taken, hruns⟩ := runs_ofMembers henabled members
  obtain ⟨works, hgroups, hstyles, hdone, -⟩ :=
    hruns.exists_works (nodup_groups hnodup) (.start config)
  exact ⟨works, hgroups, by simpa [empty] using hstyles, hdone⟩

namespace Worked

variable {config : SharingConfig} {members : List Member} {works : List Work} {w : Work}
  {m : Member}

/-- The elements of a tag are those that have it. -/
theorem perm_group (h : Worked config members works) (hw : w ∈ works) :
    w.group.Perm (members.filter fun m ↦ m.tag = w.tag) := by
  refine perm_of_mem_groups (e := (w.tag, w.group)) ?_
  rw [← h.groups]
  exact List.mem_map_of_mem hw

theorem mem_group_iff (h : Worked config members works) (hw : w ∈ works) :
    m ∈ w.group ↔ m ∈ members ∧ m.tag = w.tag := by
  simpa using (h.perm_group hw).mem_iff (a := m)

theorem exists_mem (h : Worked config members works) (hm : m ∈ members) :
    ∃ w ∈ works, w.tag = m.tag := by
  obtain ⟨e, he, hme⟩ := exists_mem_groups hm
  rw [← h.groups] at he
  obtain ⟨w, hw, rfl⟩ := List.mem_map.1 he
  exact ⟨w, hw, (tag_of_mem_groups (h.groups ▸ List.mem_map_of_mem hw) hme).2.symm⟩

theorem nodup_tags (h : Worked config members works) : (works.map Work.tag).Nodup := by
  have htags : works.map Work.tag = (Sharing.groups members).map Prod.fst := by
    rw [← h.groups, List.map_map]
    rfl
  rw [htags]
  exact Sharing.nodup_tags members

end Worked

end Sharing

end ViewCompiler
