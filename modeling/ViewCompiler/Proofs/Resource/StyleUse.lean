import ViewCompiler.Proofs.Resource.Lossless

/-!
# Every style is used

A style is made for elements that refer to it from then on. When a narrower style covers some of
them, it covers all or none of those that refer to the same style, and names that style as its
parent. So a style is referred to by an element or is the parent of another style, whatever is made
later (`Sharing.Used.promote`), and this holds of all styles in the end (`Sharing.used_ofMembers`).

The same induction shows the rest of what a reader of the styles relies on: names differ, parents
and references are names of styles, and every attribute in a style is one of some element.
-/

namespace ViewCompiler

namespace Sharing

/-- What holds of some styles made for the attributes of elements, with the style that each element
refers to. -/
structure Used (config : SharingConfig) (members : List Member) (styles : List StyleEntry)
    (refers : NodeId → Option String) : Prop where
  nodup : (styles.map StyleEntry.name).Nodup
  parents : ∀ e ∈ styles, ∀ name, e.parent = some name → name ∈ styles.map StyleEntry.name
  references : ∀ id name, refers id = some name → name ∈ styles.map StyleEntry.name
  /-- A style is referred to, or another style has it as its parent. -/
  used : ∀ e ∈ styles, (∃ id, refers id = some e.name) ∨
    ∃ e' ∈ styles, e'.name ≠ e.name ∧ e'.parent = some e.name
  /-- Attributes in styles are those of elements, and may be shared. -/
  carried : ∀ e ∈ styles, ∀ k v, (k, v) ∈ e.attributes →
    (∃ m ∈ members, m.attributes.get? k = some v) ∧ config.excludes k = false

/-- The style that an element refers to while a tag is worked on. -/
def Progress.refers (p : Progress) (id : NodeId) : Option String :=
  (p.tips.get? id).or (p.result.assignments.get? id)

section Round

variable {config : SharingConfig} {members group : List Member} {start : Sharing} {p : Progress}
  {c : Candidate}

theorem refers_promote (base : String) (hc : c.coverage.Nodup) (id : NodeId) :
    (promote base p c).refers id =
      if id ∈ c.coverage then some (newStyle base p c).name else p.refers id := by
  have hassignments : (promote base p c).result.assignments = p.result.assignments := rfl
  rw [Progress.refers, promote_tips base p hc, hassignments]
  split <;> rfl

/-- An attribute of a new style is one of every element that it covers, and may be shared. -/
theorem InRound.get?_of_mem_newStyle (hround : InRound config group start p)
    (hc : Promotable p.remaining p.tips c) (base : String) {k v : String}
    (hv : (k, v) ∈ (newStyle base p c).attributes) {m : Member} (hm : m ∈ group)
    (hid : m.id ∈ c.coverage) : m.attributes.get? k = some v ∧ config.excludes k = false := by
  obtain ⟨attributes, hattributes, hpairs⟩ := hc.carried m.id hid
  obtain ⟨remaining, l, hremaining, -, hmoved⟩ := hround.members m hm
  obtain rfl := Option.some.inj (hremaining.symm.trans hattributes)
  have hshared : (shareable config m).get? k = some v :=
    (hmoved.split k v).2 (.inl (hpairs (k, v) hv))
  rwa [get?_shareable_eq_some_iff] at hshared

/-- **One more style.** -/
theorem Used.promote (h : Used config members p.result.styles p.refers)
    (hround : InRound config group start p) (hgroup : group ⊆ members)
    (hfree : ∀ id ∈ group.map Member.id, start.assignments.get? id = none)
    (hc : Promotable p.remaining p.tips c) (base : String) :
    Used config members (promote base p c).result.styles (promote base p c).refers := by
  have hcovered := hround.covered hc
  -- a covered element refers to what its tip says, since the tags before know nothing of it
  have hrefers : ∀ id ∈ c.coverage, p.refers id = p.tips.get? id := fun id hid ↦ by
    rw [Progress.refers, hround.assignments, hfree id (hcovered id hid), Option.or_none]
  have hfresh : ∀ e ∈ p.result.styles, (newStyle base p c).name ≠ e.name := fun e he ↦
    (hround.name_ne_newStyle base c he).symm
  obtain ⟨first, hfirst⟩ := hc.exists_covered
  have hparent := parent_newStyle hc base hfirst
  have hnames : (Sharing.promote base p c).result.styles.map StyleEntry.name =
      p.result.styles.map StyleEntry.name ++ [(newStyle base p c).name] := by
    rw [promote_styles, List.map_append]
    rfl
  refine ⟨?_, fun e he name hname ↦ ?_, fun id name hname ↦ ?_, fun e he ↦ ?_,
    fun e he k v hv ↦ ?_⟩
  · rw [hnames]
    refine h.nodup.append (List.nodup_singleton _) fun name hname hnew ↦ ?_
    obtain ⟨e, he, rfl⟩ := List.mem_map.1 hname
    exact hfresh e he (List.mem_singleton.1 hnew).symm
  · rw [hnames]
    refine List.mem_append_left _ ?_
    rw [promote_styles, List.mem_append, List.mem_singleton] at he
    rcases he with he | rfl
    · exact h.parents e he name hname
    · rw [hparent, ← hrefers first hfirst] at hname
      exact h.references first name hname
  · rw [hnames, List.mem_append, List.mem_singleton]
    rw [refers_promote base hc.nodup_coverage] at hname
    split at hname
    · exact .inr (Option.some.inj hname).symm
    · exact .inl (h.references id name hname)
  · simp only [promote_styles, List.mem_append, List.mem_singleton,
      refers_promote base hc.nodup_coverage] at he ⊢
    -- a style that loses an element to the new style is the parent of that
    rcases he with he | rfl
    · rcases h.used e he with ⟨id, hid⟩ | ⟨e', he', hne, hchild⟩
      · by_cases hin : id ∈ c.coverage
        · refine .inr ⟨_, .inr rfl, hfresh e he, ?_⟩
          rw [parent_newStyle hc base hin, ← hrefers id hin, hid]
        · exact .inl ⟨id, by rw [if_neg hin, hid]⟩
      · exact .inr ⟨e', .inl he', hne, hchild⟩
    · exact .inl ⟨first, if_pos hfirst⟩
  · rw [promote_styles, List.mem_append, List.mem_singleton] at he
    rcases he with he | rfl
    · exact h.carried e he k v hv
    · obtain ⟨m, hm, rfl⟩ := List.mem_map.1 (hcovered first hfirst)
      obtain ⟨hattribute, hexcluded⟩ := hround.get?_of_mem_newStyle hc base hv hm hfirst
      exact ⟨⟨m, hgroup hm, hattribute⟩, hexcluded⟩

theorem Used.promoteAll (h : Used config members p.result.styles p.refers)
    (hround : InRound config group start p) (hgroup : group ⊆ members)
    (hfree : ∀ id ∈ group.map Member.id, start.assignments.get? id = none) (base : String)
    (n fuel : Nat) :
    Used config members (promoteAll base n fuel p).result.styles
      (promoteAll base n fuel p).refers := by
  induction fuel generalizing p with
  | zero => exact h
  | succ fuel ih =>
    rw [Sharing.promoteAll]
    split
    · exact h
    · rename_i c hbest
      have hc := promotable_of_best? hbest
      exact ih (h.promote hround hgroup hfree hc base) (hround.promote hc base)

end Round

/-! ### One tag after another -/

section Group

variable {config : SharingConfig} {members done group : List Member} {taken : List String}
  {s : Sharing}

/-- **The styles of one more tag.** -/
theorem Used.shareGroup (h : Used config members s.styles s.assignments.get?)
    (hshared : Shared config done taken s) (hgroup : group ⊆ members)
    (hnodup : (group.map Member.id).Nodup)
    (hdisjoint : List.Disjoint (done.map Member.id) (group.map Member.id)) (tag : String) :
    Used config members (shareGroup config tag group taken s).2.styles
      (shareGroup config tag group taken s).2.assignments.get? := by
  have hround := hshared.inRound hnodup hdisjoint
  have hfree : ∀ id ∈ group.map Member.id, s.assignments.get? id = none := fun id hid ↦
    (hshared.untouched id fun hdone ↦ hdisjoint hdone hid).2
  have hend := fun base n fuel ↦ h.promoteAll hround hgroup hfree base n fuel
  -- the styles of this tag are taken over into the assignments
  have hrefers : ∀ p : Progress, p.refers =
      (p.result.assignments.insertAll p.tips.entries).get? := fun p ↦ funext fun id ↦ by
    rw [get?_insertAll_tips, Progress.refers]
  rw [Sharing.shareGroup]
  dsimp only
  rw [← hrefers]
  exact hend _ _ _

end Group

theorem Used.foldl {config : SharingConfig} {members : List Member}
    (gs : List (String × List Member)) (hgs : gs.flatMap Prod.snd ⊆ members) :
    ∀ {done : List Member} {taken : List String} {s : Sharing},
      ((done ++ gs.flatMap Prod.snd).map Member.id).Nodup → Shared config done taken s →
      Used config members s.styles s.assignments.get? →
      let result := (gs.foldl (fun acc e ↦ Sharing.shareGroup config e.1 e.2 acc.1 acc.2)
        (taken, s)).2
      Used config members result.styles result.assignments.get? := by
  induction gs with
  | nil => exact fun _ _ h ↦ h
  | cons e r ih =>
    intro done taken s hnodup hshared h
    rw [List.flatMap_cons] at hgs hnodup
    rw [← List.append_assoc] at hnodup
    have hfirst : ((done ++ e.2).map Member.id).Nodup :=
      hnodup.sublist ((List.sublist_append_left _ _).map _)
    rw [List.map_append, List.nodup_append'] at hfirst
    have hgroup := List.Subset.trans (List.subset_append_left _ _) hgs
    exact ih (List.Subset.trans (List.subset_append_right _ _) hgs) hnodup
      (hshared.shareGroup hfirst.2.1 hfirst.2.2 e.1)
      (h.shareGroup hshared hgroup hfirst.2.1 hfirst.2.2 e.1)

/-- **All styles are used.** -/
theorem used_ofMembers (config : SharingConfig) {members : List Member}
    (hnodup : (members.map Member.id).Nodup) :
    Used config members (ofMembers config members).styles
      (ofMembers config members).assignments.get? := by
  have hempty : Used config members (empty : Sharing).styles
      (empty : Sharing).assignments.get? := by
    refine ⟨.nil, fun e he ↦ absurd he List.not_mem_nil, fun id name hname ↦ ?_,
      fun e he ↦ absurd he List.not_mem_nil, fun e he ↦ absurd he List.not_mem_nil⟩
    exact absurd hname (by simp [empty])
  rw [ofMembers]
  split
  · refine Used.foldl (groups members) (fun m hm ↦ ?_) (nodup_groups hnodup) (.start config) hempty
    obtain ⟨e, he, hmem⟩ := List.mem_flatMap.1 hm
    exact (tag_of_mem_groups he hmem).1
  · exact hempty

/-- An element that has not been given to the sharing has no style and loses nothing. -/
theorem untouched_ofMembers (config : SharingConfig) {members : List Member}
    (hnodup : (members.map Member.id).Nodup) {id : NodeId} (hid : id ∉ members.map Member.id) :
    (ofMembers config members).removals.get? id = none ∧
      (ofMembers config members).assignments.get? id = none := by
  rw [ofMembers]
  split
  · obtain ⟨taken, hend⟩ := Shared.foldl (groups members) (nodup_groups hnodup) (.start config)
    refine hend.untouched id fun hdone ↦ hid ?_
    obtain ⟨m, hm, rfl⟩ := List.mem_map.1 hdone
    obtain ⟨e, he, hmem⟩ := List.mem_flatMap.1 hm
    exact List.mem_map_of_mem (tag_of_mem_groups he hmem).1
  · exact ⟨rfl, rfl⟩

end Sharing

end ViewCompiler
