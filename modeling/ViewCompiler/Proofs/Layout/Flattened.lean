import ViewCompiler.Proofs.Layout.Planting

/-!
# Layout runs are the flattening of the source

`Ingest.runs_flatten` says what the layout runs of a document are once it has been made into nodes:
the run of a root or an element that is not excluded holds the nodes of the boxes inside it, in the
order of the source. There are two exceptions, which come from the changes after the walk. A node
with a single run of text inside has taken the text over, and a selection has no run.

The changes after the walk are made at each node that is found below the root. Since a change cuts
runs and never adds to one, `Rooted` holds before each of them: below the root all nodes are found
that are not excluded. `Amends` says what a change does to all profiles at once.
-/

namespace ViewCompiler

open NodeTree Ingest

variable {t t' t'' : NodeTree}

/-! ### What is found below a root -/

/-- The layout of a document whose root is the first of its nodes. -/
structure Rooted (root : NodeId) (t : NodeTree) : Prop where
  lt : root < t.size
  member : ∀ p c, root ≤ p → c ∈ t.layoutRun p → p < c ∧ t.documentParent? c = some p
  nodup : ∀ p, root ≤ p → (t.layoutRun p).Nodup
  /-- Texts and nodes outside the layout have no run. -/
  idle : ∀ i f, root < i → t.profile? i = some f → f.kind = .text ∨ f.documentParent = none →
    f.run = []
  reached : ∀ i f, root < i → t.profile? i = some f → f.kind ≠ .text → f.documentParent ≠ none →
    ∃ a, root ≤ a ∧ a < i ∧ i ∈ t.layoutRun a

namespace Rooted

/-- The runs from a root on. Those of other documents may be anything, and are not met. -/
def runFrom (t : NodeTree) (root p : NodeId) : List NodeId :=
  if root ≤ p then t.layoutRun p else []

theorem mem_runFrom {root p c : NodeId} (hc : c ∈ runFrom t root p) :
    root ≤ p ∧ c ∈ t.layoutRun p := by
  rw [runFrom] at hc
  split at hc
  · exact ⟨‹_›, hc⟩
  · exact absurd hc List.not_mem_nil

end Rooted

/-- The runs from a root on, whose members have larger numbers. -/
structure Hung (root : NodeId) (t : NodeTree) : Prop where
  lt : root < t.size
  member : ∀ p c, root ≤ p → c ∈ t.layoutRun p → p < c ∧ t.documentParent? c = some p
  nodup : ∀ p, root ≤ p → (t.layoutRun p).Nodup

namespace Hung

open Rooted

variable {root : NodeId} (h : Hung root t)

include h

theorem lt_size {p c : NodeId} (hp : root ≤ p) (hc : c ∈ t.layoutRun p) : c < t.size := by
  have hparent := (h.member p c hp hc).2
  obtain ⟨l, hl, -⟩ := Option.bind_eq_some_iff.1 hparent
  exact lt_size_of_links? hl

theorem forest : Forest (runFrom t root) := by
  refine ⟨fun p ↦ ?_, fun {p q c} hp hq ↦ ?_, ?_⟩
  · rw [runFrom]
    split
    · exact h.nodup p ‹_›
    · exact .nil
  · have hp' := (h.member p c (mem_runFrom hp).1 (mem_runFrom hp).2).2
    have hq' := (h.member q c (mem_runFrom hq).1 (mem_runFrom hq).2).2
    exact Option.some.inj (hp'.symm.trans hq')
  · refine Subrelation.wf (fun {c p} hc ↦ ?_) (InvImage.wf (fun i ↦ t.size - i) Nat.lt_wfRel.wf)
    obtain ⟨hp, hc⟩ := mem_runFrom hc
    have hlt := (h.member p c hp hc).1
    exact Nat.sub_lt_sub_left (Nat.lt_trans hlt (h.lt_size hp hc)) hlt

theorem bounds_of_inside {i : NodeId} (hin : Inside (runFrom t root) root i) :
    root ≤ i ∧ i < t.size := by
  induction hin with
  | refl => exact ⟨Nat.le_refl _, h.lt⟩
  | tail _ hc ih =>
    obtain ⟨hp, hc⟩ := mem_runFrom hc
    exact ⟨Nat.le_trans hp (Nat.le_of_lt (h.member _ _ hp hc).1), h.lt_size hp hc⟩

/-- **The walk downwards lists what is inside the root**, and no node twice. -/
theorem exists_layoutSubtree : ∃ ids, t.layoutSubtree root = .ok ids ∧ ids.Nodup ∧
    ∀ i, i ∈ ids ↔ Inside (runFrom t root) root i := by
  obtain ⟨o, hroot, ho⟩ := h.forest.exists_outline root
  have hle : ∀ i ∈ o.ids, root ≤ i ∧ i < t.size := fun i hi ↦
    h.bounds_of_inside (hroot ▸ (Outline.mem_ids_iff ho).1 hi)
  have hfollows : o.Follows t.layoutRun := ho.congr fun i hi ↦ (if_pos (hle i hi).1).symm
  refine ⟨o.ids, ?_, h.forest.nodup_ids ho, fun i ↦ ?_⟩
  · rw [← hroot]
    exact Outline.walk_root descendLayout_nil descendLayout_cons hfollows
      (h.forest.nodup_ids ho) fun i hi ↦ (hle i hi).2
  · rw [Outline.mem_ids_iff ho, hroot]

end Hung

namespace Rooted

variable {root : NodeId} (h : Rooted root t)

include h

theorem hung : Hung root t := ⟨h.lt, h.member, h.nodup⟩

/-- **All that takes part in the layout is inside the root**, texts apart. The induction is on the
number: a node around another one has a run, so that it takes part itself. -/
theorem inside (i : NodeId) {f : Profile} (hi : root ≤ i) (hf : t.profile? i = some f)
    (hkind : f.kind ≠ .text) (hin : i = root ∨ f.documentParent ≠ none) :
    Inside (runFrom t root) root i := by
  induction i using Nat.strong_induction_on generalizing f with
  | _ i ih =>
    rcases Nat.lt_or_eq_of_le hi with hlt | rfl
    · obtain ⟨a, ha, hai, hmem⟩ := h.reached i f hlt hf hkind
        (hin.resolve_left (Nat.ne_of_gt hlt))
      obtain ⟨g, hg⟩ := exists_profile? (lt_size_of_mem_layoutRun hmem)
      have hne : g.run ≠ [] := fun heq ↦ by
        rw [layoutRun_of_profile? hg, heq] at hmem
        exact absurd hmem List.not_mem_nil
      have habove : Inside (runFrom t root) root a := by
        rcases Nat.lt_or_eq_of_le ha with hlt' | rfl
        · exact ih a hai ha hg (fun hk ↦ hne (h.idle a g hlt' hg (.inl hk)))
            (.inr fun hnone ↦ hne (h.idle a g hlt' hg (.inr hnone)))
        · exact .refl
      exact habove.tail (by rw [runFrom, if_pos ha]; exact hmem)
    · exact .refl

/-- **All that takes part in the layout is found below the root**, texts apart. -/
theorem exists_layoutSubtree : ∃ ids, t.layoutSubtree root = .ok ids ∧ ids.Nodup ∧
    ∀ i f, root ≤ i → t.profile? i = some f → f.kind ≠ .text →
      i = root ∨ f.documentParent ≠ none → i ∈ ids := by
  obtain ⟨ids, hids, hnodup, hmem⟩ := h.hung.exists_layoutSubtree
  exact ⟨ids, hids, hnodup, fun i f hi hf hkind hin ↦ (hmem i).2 (h.inside i hi hf hkind hin)⟩

end Rooted

/-! ### After the walk -/

/-- The nodes of a document after the walk. -/
structure Housed (root : NodeId) (layout : List (Handle × List Box)) (t : NodeTree) : Prop where
  lt : root < t.size
  laid : ∀ i f, root ≤ i → t.profile? i = some f → t.Laid layout i f
  reached : ∀ i f, root < i → t.profile? i = some f →
    f.excluded = true ∧ f.documentParent = none ∨
      f.documentParent ≠ none ∧ ∃ a, root ≤ a ∧ a < i ∧ i ∈ t.layoutRun a

theorem Planted.housed {root : NodeId} {boxes : List Box} {inside : List (Handle × List Box)}
    {ids : List NodeId} (h : Planted root boxes inside ids t t') (hsize : t.size = root + 1)
    {f : Profile} (hf : t.profile? root = some f) {x : Handle} (hkind : f.kind = .root)
    (helement : f.element = some x) (hshown : f.excluded = false) (hrun : f.run = []) :
    Housed root ((x, boxes) :: inside) t' := by
  have hlater : ∀ {i}, root < i → t.size ≤ i := fun hi ↦ hsize ▸ hi
  have hroot : t'.profile? root = some { f with run := ids } := by
    rw [h.profile? hf, if_pos rfl, hrun, List.nil_append]
  refine ⟨lt_size_of_profile? hroot, fun i g hi hg ↦ ?_, fun i g hi hg ↦ ?_⟩
  · rcases Nat.lt_or_eq_of_le hi with hlt | rfl
    · exact (h.laid i g (hlater hlt) hg).mono (lt_size_of_profile? hg) (.refl _)
        (List.subset_cons_self _ _)
    · obtain rfl := Option.some.inj (hroot.symm.trans hg)
      exact .inr ⟨⟨.inl hkind, hshown⟩, x, boxes, helement, List.mem_cons_self, h.holds⟩
  · refine (h.reached i g (hlater hi) hg).imp_right fun ⟨hparent, a, halt, hmem, ha⟩ ↦
      ⟨hparent, a, ?_, halt, hmem⟩
    rcases ha with rfl | ha
    · exact Nat.le_refl _
    · rw [hsize] at ha
      exact Nat.le_of_succ_le ha

theorem Housed.rooted {root : NodeId} {layout : List (Handle × List Box)}
    (h : Housed root layout t) : Rooted root t := by
  -- what is in a run, the owner holds
  have hholds : ∀ {p c}, root ≤ p → c ∈ t.layoutRun p → ∃ boxes, t.Holds p boxes (t.layoutRun p) :=
    fun {p c} hp hc ↦ by
      obtain ⟨f, hf⟩ := exists_profile? (lt_size_of_mem_layoutRun hc)
      rw [layoutRun_of_profile? hf] at hc ⊢
      rcases h.laid p f hp hf with ⟨-, hrun⟩ | ⟨-, x, boxes, -, -, hholds⟩
      · rw [hrun] at hc
        exact absurd hc List.not_mem_nil
      · exact ⟨boxes, hholds⟩
  refine ⟨h.lt, fun p c hp hc ↦ ?_, fun p hp ↦ ?_, fun i f hi hf hidle ↦ ?_,
    fun i f hi hf _ hparent ↦ ?_⟩
  · obtain ⟨boxes, hrun⟩ := hholds hp hc
    obtain ⟨b, -, f, hf, -, hparent, -⟩ := hrun.shows hc
    exact ⟨hrun.lt hc, (documentParent?_of_profile? hf).trans hparent⟩
  · cases hrun : t.layoutRun p with
    | nil => exact .nil
    | cons c r =>
      obtain ⟨boxes, hholds⟩ := hholds (c := c) hp (by rw [hrun]; exact List.mem_cons_self)
      have hascending := (List.pairwise_cons.1 hholds.ascending).2
      exact hrun ▸ hascending.imp fun hlt ↦ Nat.ne_of_lt hlt
  · rcases h.laid i f (Nat.le_of_lt hi) hf with ⟨-, hrun⟩ | ⟨⟨hkind, hshown⟩, -⟩
    · exact hrun
    · rcases hidle with htext | hnone
      · rw [htext] at hkind
        exact absurd hkind (by simp)
      · rcases h.reached i f hi hf with ⟨hexcluded, -⟩ | ⟨hparent, -⟩
        · exact absurd (hexcluded.symm.trans hshown) (by simp)
        · exact absurd hnone hparent
  · rcases h.reached i f hi hf with ⟨-, hnone⟩ | ⟨-, ha⟩
    · exact absurd hnone hparent
    · exact ha

/-! ### Changes after the walk -/

/-- A profile with its run cut and its text replaced, or neither, and perhaps excluded. -/
def Profile.cut (f : Profile) : Option (Option String) → Bool → Profile
  | none, e => { f with excluded := f.excluded || e }
  | some text, e => { f with run := [], text := text, excluded := f.excluded || e }

namespace Profile

variable (f : Profile) (c : Option (Option String)) (e : Bool)

@[simp] theorem kind_cut : (f.cut c e).kind = f.kind := by cases c <;> rfl

@[simp] theorem tag_cut : (f.cut c e).tag = f.tag := by cases c <;> rfl

@[simp] theorem element_cut : (f.cut c e).element = f.element := by cases c <;> rfl

@[simp] theorem depth_cut : (f.cut c e).depth = f.depth := by cases c <;> rfl

@[simp] theorem documentParent_cut : (f.cut c e).documentParent = f.documentParent := by
  cases c <;> rfl

@[simp] theorem excluded_cut : (f.cut c e).excluded = (f.excluded || e) := by cases c <;> rfl

@[simp] theorem run_cut : (f.cut c e).run = if c.isSome then [] else f.run := by cases c <;> rfl

@[simp] theorem text_cut : (f.cut c e).text = c.getD f.text := by cases c <;> rfl

end Profile

theorem Profile.cut_cut (f : Profile) {c c' : Option (Option String)} (h : c = none ∨ c' = none)
    (e e' : Bool) : (f.cut c e).cut c' e' = f.cut (c.or c') (e || e') := by
  rcases h with rfl | rfl
  · cases c' <;> simp [Profile.cut, Bool.or_assoc]
  · cases c <;> simp [Profile.cut, Bool.or_assoc]

/-- **What a change does to all profiles**: some runs are cut, and some nodes are excluded. -/
def Amends (t t' : NodeTree) (cuts : NodeId → Option (Option String)) : Prop :=
  ∀ i, ∃ e, t'.profile? i = (t.profile? i).map (Profile.cut · (cuts i) e)

namespace Amends

variable {cuts cuts' : NodeId → Option (Option String)}

theorem profile? (h : Amends t t' cuts) {i : NodeId} {f : Profile} (hf : t.profile? i = some f) :
    ∃ e, t'.profile? i = some (f.cut (cuts i) e) := by
  obtain ⟨e, he⟩ := h i
  exact ⟨e, by rw [he, hf, Option.map_some]⟩

theorem exists_profile? (h : Amends t t' cuts) {i : NodeId} {f' : Profile}
    (hf' : t'.profile? i = some f') : ∃ f e, t.profile? i = some f ∧ f' = f.cut (cuts i) e := by
  obtain ⟨e, he⟩ := h i
  obtain ⟨f, hf, rfl⟩ := Option.map_eq_some_iff.1 (he.symm.trans hf')
  exact ⟨f, e, hf, rfl⟩

theorem refl (t : NodeTree) : Amends t t fun _ ↦ none := fun i ↦ by
  refine ⟨false, ?_⟩
  cases t.profile? i <;> simp [Profile.cut]

/-- Two changes that do not cut the same run. -/
theorem trans (h : Amends t t' cuts) (h' : Amends t' t'' cuts')
    (honce : ∀ i, cuts i = none ∨ cuts' i = none) :
    Amends t t'' fun i ↦ (cuts i).or (cuts' i) := fun i ↦ by
  obtain ⟨e, he⟩ := h i
  obtain ⟨e', he'⟩ := h' i
  refine ⟨e || e', ?_⟩
  rw [he', he, Option.map_map]
  exact congrArg (Option.map · (t.profile? i)) (funext fun f ↦ f.cut_cut (honce i) e e')

theorem of_eq (h : Amends t t' cuts) (heq : ∀ i f, t.profile? i = some f → cuts i = cuts' i) :
    Amends t t' cuts' := fun i ↦ by
  obtain ⟨e, he⟩ := h i
  refine ⟨e, he.trans ?_⟩
  cases hf : t.profile? i with
  | none => rfl
  | some f => rw [heq i f hf]

/-- The nodes that were found are found again. -/
theorem remain (h : Amends t t' cuts)
    (htext : ∀ i f text, t.profile? i = some f → cuts i = some text → f.kind = .text →
      text = f.text) : Remain t t' := fun i f hf ↦ by
  obtain ⟨e, he⟩ := h.profile? hf
  refine ⟨_, he, ?_⟩
  cases hc : cuts i with
  | none => exact ⟨rfl, rfl, rfl, rfl, rfl, fun _ ↦ rfl⟩
  | some text => exact ⟨rfl, rfl, rfl, rfl, rfl, fun hk ↦ htext i f text hf hc hk⟩

end Amends

theorem Remain.trans (h : Remain t t') (h' : Remain t' t'') : Remain t t'' := fun i f hf ↦ by
  obtain ⟨f', hf', hlike⟩ := h i f hf
  obtain ⟨f'', hf'', hlike'⟩ := h' i f' hf'
  exact ⟨f'', hf'', hlike.trans hlike'⟩

theorem amends_modify (t : NodeTree) (id : NodeId) {f : Node → Node} (c : Option (Option String))
    (e : Bool) (hprofile : ∀ n, t.get? id = some n → (f n).profile = n.profile.cut c e) :
    Amends t (t.modify id f) fun i ↦ if i = id then c else none := fun i ↦ by
  dsimp only
  rw [NodeTree.profile?, NodeTree.profile?, get?_modify]
  by_cases hi : i = id
  · refine ⟨e, ?_⟩
    rw [if_pos hi, if_pos hi.symm]
    cases hn : t.get? i with
    | none => rfl
    | some n => exact congrArg some (hprofile n (hi ▸ hn))
  · refine ⟨false, ?_⟩
    rw [if_neg hi, if_neg fun heq ↦ hi heq.symm]
    cases t.get? i <;> simp [Profile.cut]

/-- Excluding a node cuts nothing. -/
theorem amends_exclude (t : NodeTree) (id : NodeId) :
    Amends t (t.modify id fun n ↦ { n with excluded := true }) fun _ ↦ none :=
  (amends_modify t id none true fun n _ ↦ by simp [Node.profile, Profile.cut]).of_eq
    fun i _ _ ↦ by simp

/-- Steps that cut at most one run each do at every node what they would do first. -/
theorem amends_foldl {step : NodeTree → NodeId → NodeTree}
    {cut : NodeTree → NodeId → Option (Option String)}
    (hstep : ∀ t j, Amends t (step t j) fun i ↦ if i = j then cut t i else none)
    (hkeep : ∀ t t' j, Amends t t' (fun i ↦ if i = j then cut t i else none) →
      ∀ i, i ≠ j → cut t' i = cut t i)
    {ids : List NodeId} (hnodup : ids.Nodup) :
    Amends t (ids.foldl step t) fun i ↦ if i ∈ ids then cut t i else none := by
  induction ids generalizing t with
  | nil => exact (Amends.refl t).of_eq fun _ _ _ ↦ by simp
  | cons j r ih =>
    obtain ⟨hnew, hnodup⟩ := List.nodup_cons.1 hnodup
    refine ((hstep t j).trans (ih hnodup) fun i ↦ ?_).of_eq fun i f _ ↦ ?_
    · by_cases hi : i = j
      · exact .inr (if_neg (hi ▸ hnew))
      · exact .inl (if_neg hi)
    · by_cases hi : i = j
      · rw [if_pos hi, if_neg (hi ▸ hnew), Option.or_none, if_pos (hi ▸ List.mem_cons_self)]
      · rw [if_neg hi, Option.none_or, hkeep t _ j (hstep t j) i hi]
        simp [hi]

/-- **A change at each node below a root** does at each what it would do first. -/
theorem amends_atEach {change : NodeTree → Node → NodeTree}
    {cut : NodeTree → NodeId → Option (Option String)}
    (hchange : ∀ t n, t.get? n.id = some n →
      Amends t (change t n) fun i ↦ if i = n.id then cut t i else none)
    (hkeep : ∀ t t' j, Amends t t' (fun i ↦ if i = j then cut t i else none) →
      ∀ i, i ≠ j → cut t' i = cut t i)
    {root : NodeId} {ids : List NodeId} (hids : t.layoutSubtree root = .ok ids)
    (hnodup : ids.Nodup) :
    Amends t (atEach change t root) fun i ↦ if i ∈ ids then cut t i else none := by
  rw [atEach, hids]
  refine amends_foldl (fun t j ↦ ?_) hkeep hnodup
  cases hn : t.get? j with
  | none =>
    refine (Amends.refl t).of_eq fun i f hf ↦ (if_neg fun heq ↦ ?_).symm
    rw [heq, NodeTree.profile?, hn] at hf
    exact absurd hf (by simp)
  | some n =>
    obtain rfl := id_of_get? hn
    exact hchange t n hn

/-! #### A single text -/

/-- The text that a node takes over: that of the one member of its run. -/
def soleText (t : NodeTree) (i : NodeId) : Option (Option String) :=
  (t.profile? i).bind fun f ↦
    match f.run with
    | [only] => (t.profile? only).bind fun c ↦
        if c.kind = .text ∧ f.kind ≠ .text then some c.text else none
    | _ => none

theorem soleText_eq_some_iff {i : NodeId} {text : Option String} :
    soleText t i = some text ↔ ∃ f only c, t.profile? i = some f ∧ f.run = [only] ∧
      t.profile? only = some c ∧ c.kind = .text ∧ f.kind ≠ .text ∧ c.text = text := by
  constructor
  · intro h
    obtain ⟨f, hf, h⟩ := Option.bind_eq_some_iff.1 h
    split at h
    · rename_i only hrun
      obtain ⟨c, hc, h⟩ := Option.bind_eq_some_iff.1 h
      split at h
      · rename_i hkind
        exact ⟨f, only, c, hf, hrun, hc, hkind.1, hkind.2, Option.some.inj h⟩
      · exact absurd h (by simp)
    · exact absurd h (by simp)
  · rintro ⟨f, only, c, hf, hrun, hc, hck, hfk, rfl⟩
    rw [soleText, hf, Option.bind_some, hrun]
    show (t.profile? only).bind _ = _
    rw [hc, Option.bind_some, if_pos ⟨hck, hfk⟩]

theorem amends_collapseText (t : NodeTree) (n : Node) (hn : t.get? n.id = some n) :
    Amends t (collapseText t n) fun i ↦ if i = n.id then soleText t i else none := by
  have hf := profile?_of_get? hn
  have hkeep : soleText t n.id = none →
      Amends t t fun i ↦ if i = n.id then soleText t i else none := fun hnone ↦
    (Amends.refl t).of_eq fun i f _ ↦ by
      split
      · rename_i hi
        rw [hi, hnone]
      · rfl
  unfold collapseText
  split
  · rename_i only hrun
    have hsole : soleText t n.id = (t.get? only).bind fun c ↦
        if c.kind = .text ∧ n.kind ≠ .text then some c.text else none := by
      rw [soleText, hf, Option.bind_some]
      show (match n.layoutChildren with | [only] => _ | _ => _) = _
      rw [hrun]
      show (t.profile? only).bind _ = _
      rw [NodeTree.profile?, Option.bind_map]
      rfl
    split
    · rename_i c hc
      rw [hc, Option.bind_some] at hsole
      split
      · rename_i hkind
        simp only [Bool.and_eq_true, beq_iff_eq, bne_iff_ne] at hkind
        rw [if_pos hkind] at hsole
        have hcut := amends_modify t n.id (some c.text) false
          (f := fun n ↦ { n with text := c.text, layoutChildren := [] })
          fun n _ ↦ by simp [Node.profile, Profile.cut]
        refine (hcut.trans (amends_exclude _ only) fun _ ↦ .inr rfl).of_eq fun i _ _ ↦ ?_
        rw [Option.or_none]
        split
        · rename_i hi
          rw [hi, hsole]
        · rfl
      · rename_i hkind
        refine hkeep (hsole.trans (if_neg fun hk ↦ hkind ?_))
        simpa using hk
    · rename_i hc
      rw [hc] at hsole
      exact hkeep hsole
  · rename_i hrun
    refine hkeep ?_
    rw [soleText, hf, Option.bind_some]
    show (match n.layoutChildren with | [only] => _ | _ => _) = _
    split
    · rename_i only heq
      exact absurd heq (hrun only)
    · rfl

/-- A text keeps its text, and a node keeps its run while another one takes a text over. -/
theorem soleText_keep (t t' : NodeTree) (j : NodeId)
    (h : Amends t t' fun i ↦ if i = j then soleText t i else none) (i : NodeId) (hi : i ≠ j) :
    soleText t' i = soleText t i := by
  obtain ⟨e, he⟩ := h i
  dsimp only at he
  rw [if_neg hi] at he
  rw [soleText, soleText, he, Option.bind_map]
  refine congrArg (Option.bind (t.profile? i)) (funext fun f ↦ ?_)
  show (match f.run with | [only] => _ | _ => _) = _
  split
  · rename_i only hrun
    -- the text that is looked at is none that takes a text over
    obtain ⟨e', he'⟩ := h only
    dsimp only at he'
    rw [he', Option.bind_map]
    cases hc : t.profile? only with
    | none => rfl
    | some c =>
      rw [Option.bind_some, Option.bind_some]
      by_cases htaken : only = j ∧ soleText t only ≠ none
      · obtain ⟨text, htext⟩ := Option.ne_none_iff_exists'.1 htaken.2
        obtain ⟨g, _, _, hg, -, -, -, hkind, -⟩ := soleText_eq_some_iff.1 htext
        obtain rfl := Option.some.inj (hg.symm.trans hc)
        have hno : ∀ c : Option (Option String), (g.cut c e').kind ≠ .text := fun c ↦ by
          cases c <;> exact hkind
        rw [Function.comp_apply, if_neg fun hk ↦ hno _ hk.1, if_neg fun hk ↦ hkind hk.1]
      · have hnone : (if only = j then soleText t only else none) = none := by
          split
          · by_contra hne
            exact htaken ⟨‹_›, hne⟩
          · rfl
        rw [Function.comp_apply, hnone]
        rfl
  · rfl

/-! #### Selections -/

/-- A selection loses its run. -/
def selectCut (t : NodeTree) (i : NodeId) : Option (Option String) :=
  (t.profile? i).bind fun f ↦ if f.tag = "select" then some f.text else none

theorem amends_gatherOptions (t : NodeTree) (n : Node) (hn : t.get? n.id = some n) :
    Amends t (gatherOptions t n) fun i ↦ if i = n.id then selectCut t i else none := by
  have hcut : selectCut t n.id = if n.tag = "select" then some n.text else none := by
    rw [selectCut, profile?_of_get? hn]
    rfl
  have hexclude : ∀ (ns : List Node) (t : NodeTree), Amends t
      (ns.foldl (fun t c ↦ t.modify c.id fun c ↦ { c with excluded := true }) t) fun _ ↦ none := by
    intro ns
    induction ns with
    | nil => exact Amends.refl
    | cons c r ih =>
      intro t
      exact (amends_exclude t c.id).trans (ih _) fun _ ↦ .inl rfl
  unfold gatherOptions
  split
  · rename_i htag
    rw [if_pos (by simpa using htag)] at hcut
    dsimp only
    generalize (t.lookup n.children).filter (fun c ↦ c.tag == "option" || c.tag == "optgroup") =
      options
    have hfirst := hexclude options t
    have hlast := fun t (hn : ∀ m, t.get? n.id = some m → m.text = n.text) ↦
      amends_modify t n.id (some n.text) false
        (f := fun n ↦ { n with entries := options.filterMap Node.text, layoutChildren := [] })
        fun m hm ↦ by simp [Node.profile, Profile.cut, hn m hm]
    refine (hfirst.trans (hlast _ fun m hm ↦ ?_) fun _ ↦ .inl rfl).of_eq fun i _ _ ↦ ?_
    · obtain ⟨e, he⟩ := hfirst.profile? (profile?_of_get? hn)
      exact congrArg Profile.text (Option.some.inj ((profile?_of_get? hm).symm.trans he))
    · rw [Option.none_or]
      split
      · rename_i hi
        rw [hi, hcut]
      · rfl
  · rename_i htag
    rw [if_neg (by simpa using htag)] at hcut
    refine (Amends.refl t).of_eq fun i _ _ ↦ ?_
    split
    · rename_i hi
      rw [hi, hcut]
    · rfl

theorem selectCut_keep (t t' : NodeTree) (j : NodeId)
    (h : Amends t t' fun i ↦ if i = j then selectCut t i else none) (i : NodeId) (hi : i ≠ j) :
    selectCut t' i = selectCut t i := by
  obtain ⟨e, he⟩ := h i
  dsimp only at he
  rw [if_neg hi] at he
  rw [selectCut, selectCut, he]
  cases t.profile? i <;> rfl

/-- Tying a label to what it is for cuts nothing. -/
theorem amends_bindCompanion (root : NodeId) (t : NodeTree) (n : Node) :
    Amends t (bindCompanion root t n) fun _ ↦ none := by
  unfold bindCompanion
  split
  · split
    · exact (amends_modify t n.id none false fun n _ ↦ by
        simp [Node.profile, Profile.cut]).of_eq fun i _ _ ↦ by simp
    · exact .refl t
  · exact .refl t

theorem amends_bindCompanions (root : NodeId) (t : NodeTree) :
    Amends t (atEach (bindCompanion root) t root) fun _ ↦ none := by
  cases hids : t.layoutSubtree root with
  | error e =>
    rw [atEach, hids]
    exact .refl t
  | ok ids =>
    rw [atEach, hids]
    dsimp only
    clear hids
    induction ids generalizing t with
    | nil => exact .refl t
    | cons i r ih =>
      rw [List.foldl_cons]
      refine Amends.trans ?_ (ih _) fun _ ↦ .inl rfl
      split
      · exact amends_bindCompanion root t _
      · exact .refl t

section

variable {ids : List NodeId} (hamends : Amends t t' fun i ↦ if i ∈ ids then soleText t i else none)

include hamends

/-- Where texts have been taken over, a node has its run, or none if that was a single text. -/
theorem Amends.exists_run {i : NodeId} {f' : Profile} (hf' : t'.profile? i = some f') :
    ∃ f, t.profile? i = some f ∧ f'.kind = f.kind ∧ f'.documentParent = f.documentParent ∧
      (f'.run = f.run ∨ f'.run = [] ∧ ∃ only, f.run = [only] ∧ t.kind? only = some .text) := by
  obtain ⟨f, e, hf, rfl⟩ := hamends.exists_profile? hf'
  refine ⟨f, hf, ?_⟩
  cases hc : (if i ∈ ids then soleText t i else none) with
  | none => exact ⟨rfl, rfl, .inl rfl⟩
  | some text =>
    split at hc
    · obtain ⟨g, only, c, hg, hgrun, hc, hck, -, -⟩ := soleText_eq_some_iff.1 hc
      obtain rfl := Option.some.inj (hf.symm.trans hg)
      obtain ⟨m, hm, rfl⟩ := Option.map_eq_some_iff.1 hc
      exact ⟨rfl, rfl, .inr ⟨rfl, only, hgrun,
        (kind?_of_links? (links?_of_get? hm)).trans (congrArg some hck)⟩⟩
    · exact absurd hc (by simp)

/-- So the runs are the same or empty. -/
theorem Amends.layoutRun_eq_or (p : NodeId) :
    t'.layoutRun p = t.layoutRun p ∨ t'.layoutRun p = [] := by
  cases hf' : t'.profile? p with
  | none =>
    have hnone : t'.links? p = none := by rw [links?_eq_none_iff, ← profile?_eq_none_iff, hf']
    exact .inr (by rw [layoutRun, hnone]; rfl)
  | some f' =>
    obtain ⟨f, hf, -, -, hcut⟩ := hamends.exists_run hf'
    rw [layoutRun_of_profile? hf', layoutRun_of_profile? hf]
    exact hcut.imp id And.left

theorem Amends.mem_layoutRun {p c : NodeId} (hc : c ∈ t'.layoutRun p) : c ∈ t.layoutRun p := by
  rcases hamends.layoutRun_eq_or p with heq | heq
  · rwa [heq] at hc
  · rw [heq] at hc
    exact absurd hc List.not_mem_nil

/-- What is no text is not taken out of a run. -/
theorem Amends.mem_layoutRun_of_kind? {p c : NodeId} (hc : c ∈ t.layoutRun p)
    (hkind : t.kind? c ≠ some .text) : c ∈ t'.layoutRun p := by
  obtain ⟨g, hg⟩ := NodeTree.exists_profile? (lt_size_of_mem_layoutRun hc)
  obtain ⟨e, he⟩ := hamends.profile? hg
  obtain ⟨g', hg', -, -, hcut⟩ := hamends.exists_run he
  obtain rfl := Option.some.inj (hg.symm.trans hg')
  rw [layoutRun_of_profile? hg] at hc
  rw [layoutRun_of_profile? he]
  rcases hcut with heq | ⟨-, only, hsingle, htext⟩
  · rwa [heq]
  · rw [hsingle, List.mem_singleton] at hc
    exact absurd (hc ▸ htext) hkind

/-- What is found below a root is found when texts have been taken over. -/
theorem Rooted.collapse {root : NodeId} (h : Rooted root t) : Rooted root t' := by
  have hsize : t.size ≤ t'.size := size_le_of_profile? fun i f hf ↦ by
    obtain ⟨e, he⟩ := hamends.profile? hf
    exact ⟨_, he⟩
  refine ⟨Nat.lt_of_lt_of_le h.lt hsize, fun p c hp hc ↦ ?_, fun p hp ↦ ?_,
    fun i f' hi hf' hidle ↦ ?_, fun i f' hi hf' hkind hparent ↦ ?_⟩
  · have hmem := hamends.mem_layoutRun hc
    obtain ⟨hlt, hparent⟩ := h.member p c hp hmem
    refine ⟨hlt, ?_⟩
    obtain ⟨f, hf⟩ := NodeTree.exists_profile? (h.hung.lt_size hp hmem)
    obtain ⟨e, he⟩ := hamends.profile? hf
    obtain ⟨g, hg, -, hsame, -⟩ := hamends.exists_run he
    obtain rfl := Option.some.inj (hf.symm.trans hg)
    rw [documentParent?_of_profile? he, hsame, ← documentParent?_of_profile? hf, hparent]
  · rcases hamends.layoutRun_eq_or p with heq | heq
    · exact heq ▸ h.nodup p hp
    · exact heq ▸ .nil
  · obtain ⟨f, hf, hkind, hparent, hcut⟩ := hamends.exists_run hf'
    rw [hkind, hparent] at hidle
    rcases hcut with heq | ⟨heq, -⟩
    · exact heq.trans (h.idle i f hi hf hidle)
    · exact heq
  · obtain ⟨f, hf, hsame, hdocument, -⟩ := hamends.exists_run hf'
    rw [hsame] at hkind
    rw [hdocument] at hparent
    obtain ⟨a, ha, hlt, hmem⟩ := h.reached i f hi hf hkind hparent
    refine ⟨a, ha, hlt, hamends.mem_layoutRun_of_kind? hmem fun htext ↦ ?_⟩
    obtain ⟨m, hm, rfl⟩ := Option.map_eq_some_iff.1 hf
    rw [kind?_of_links? (links?_of_get? hm)] at htext
    exact hkind (Option.some.inj htext)

end

/-! ### The theorem -/

/-- What the run of a node is, given the boxes inside. -/
structure NodeTree.RunOf (t : NodeTree) (n : Node) (boxes : List Box) : Prop where
  /-- A selection has no run. -/
  select : n.tag = "select" → n.layoutChildren = []
  /-- A single text is taken over. -/
  sole : ∀ x s, boxes = [.text x s] → n.layoutChildren = [] ∧ n.text = some s
  /-- Otherwise the run is made up of the nodes of the boxes, in the same order. -/
  run : n.tag ≠ "select" → (∀ x s, boxes ≠ [.text x s]) →
    List.Forall₂ (fun b c ↦ ∃ m, t.get? c = some m ∧ b.Fits m.profile) boxes n.layoutChildren
  member : ∀ c ∈ n.layoutChildren, ∃ m, t.get? c = some m ∧ m.documentParent = some n.id ∧
    m.depth = n.depth + 1

/-- **A run after the three changes**: taking over a text, emptying a selection, and one that cuts
nothing. -/
theorem NodeTree.Holds.runOf (hremain : Remain t t') {i : NodeId} {f : Profile} {boxes : List Box}
    (hf : t.profile? i = some f) (hholds : t.Holds i boxes f.run) (hkind : f.kind ≠ .text)
    {n : Node} (hn : t'.get? i = some n) (e₁ e₂ e₃ : Bool)
    (heq : n.profile = ((f.cut (soleText t i) e₁).cut
      (if f.tag = "select" then some (f.cut (soleText t i) e₁).text else none) e₂).cut none e₃) :
    t'.RunOf n boxes := by
  have htag : n.tag = f.tag := (congrArg Profile.tag heq).trans (by simp)
  have hdepth : n.depth = f.depth := (congrArg Profile.depth heq).trans (by simp)
  have hrun : n.layoutChildren = if f.tag = "select" ∨ (soleText t i).isSome then [] else f.run :=
    (congrArg Profile.run heq).trans (by by_cases hs : f.tag = "select" <;> simp [hs])
  have htext : n.text = (soleText t i).getD f.text :=
    (congrArg Profile.text heq).trans (by by_cases hs : f.tag = "select" <;> simp [hs])
  refine ⟨fun hselect ↦ ?_, fun x s hboxes ↦ ?_, fun hselect hboxes ↦ ?_, fun c hc ↦ ?_⟩
  · rw [hrun, if_pos (.inl (htag.symm.trans hselect))]
  · have hshown := hholds.shown
    rw [hboxes] at hshown
    obtain ⟨c, r, ⟨g, hg, hfits, -⟩, hnil, hcons⟩ := List.forall₂_cons_left_iff.1 hshown
    obtain rfl := List.forall₂_nil_left_iff.1 hnil
    have hsole : soleText t i = some (some s) := soleText_eq_some_iff.2
      ⟨f, c, g, hf, hcons, hg, hfits.1, hkind, hfits.2.2⟩
    rw [hrun, htext, hsole]
    exact ⟨if_pos (.inr rfl), rfl⟩
  · have hnone : soleText t i = none := by
      by_contra hsome
      obtain ⟨text, hsome⟩ := Option.ne_none_iff_exists'.1 hsome
      obtain ⟨f', only, g, hf', hsingle, hg, hgk, -, -⟩ := soleText_eq_some_iff.1 hsome
      obtain rfl := Option.some.inj (hf.symm.trans hf')
      have hshown := hholds.shown
      rw [hsingle] at hshown
      obtain ⟨b, r, ⟨g', hg', hfits, -⟩, hnil, rfl⟩ := List.forall₂_cons_right_iff.1 hshown
      obtain rfl := List.forall₂_nil_right_iff.1 hnil
      obtain rfl := Option.some.inj (hg.symm.trans hg')
      cases b with
      | text x s => exact hboxes x s rfl
      | element x => exact absurd (hgk.symm.trans hfits.1) (by simp)
    have hnot : ¬(f.tag = "select" ∨ (soleText t i).isSome) := by
      rw [hnone]
      simpa using fun hs ↦ hselect (htag.trans hs)
    rw [hrun, if_neg hnot]
    refine hholds.shown.imp fun b c hb ↦ ?_
    obtain ⟨g, hg, hfits, -⟩ := hremain.shows (lt_size_of_profile? hf) hb
    obtain ⟨m, hm, rfl⟩ := Option.map_eq_some_iff.1 hg
    exact ⟨m, hm, hfits⟩
  · rw [hrun] at hc
    split at hc
    · exact absurd hc List.not_mem_nil
    · obtain ⟨b, -, hb⟩ := hholds.shows hc
      obtain ⟨g, hg, hlike⟩ := hremain i f hf
      obtain ⟨g', hg', -, hparent, hdeep⟩ := hremain.shows (lt_size_of_profile? hf) hb
      obtain ⟨m, hm, rfl⟩ := Option.map_eq_some_iff.1 hg'
      refine ⟨m, hm, by rw [id_of_get? hn]; exact hparent, ?_⟩
      rw [hdepth, ← hlike.depth, ← depthOf_of_profile? hg]
      exact hdeep

namespace Ingest

variable {p : Provider} {warned warned' : List String} {element : Handle} {report : IngestReport}

/-- A document that has a root was walked through, and then changed three times. -/
theorem exists_walked {root : NodeId}
    (h : document p t warned element = .ok (report, t', warned'))
    (hroot : report.root = some root) :
    root = t.size ∧ ∃ boxes inside met s,
      Flattens p [element] (p.children element) boxes inside met ∧
      Housed root ((element, boxes) :: inside) s ∧
      t' = atEach (bindCompanion root)
        (atEach gatherOptions (atEach collapseText s root) root) root := by
  rcases document_cases h with ⟨hnone, -⟩ | ⟨m, -, hsome, -, rfl, -⟩
  · exact absurd (hnone.symm.trans hroot) (by simp)
  obtain rfl := Option.some.inj (hsome.symm.trans hroot)
  obtain ⟨boxes, inside, met, hflat⟩ := exists_flattens p [element] (p.children element)
  have hfilled : (start t warned element m).tree.profile? t.size =
      some ⟨.root, m.tag, some element, 0, false, none, [], textOf m⟩ := by
    rw [start, profile?_fill, if_pos rfl]
    dsimp only
    rw [profile?_alloc, if_pos rfl]
    rfl
  have hsize : (start t warned element m).tree.size = t.size + 1 :=
    (unmoved_fill _ _ _ _).size_eq.trans (size_alloc _ _ _)
  have hlt := lt_size_of_profile? hfilled
  obtain ⟨fuel, s, ids, hwalk, -, -, hplanted⟩ := planted_walk hflat _ _
    ((visited_fill _ _ _ _).trans rfl) hlt hlt 0 (potential_le_bound p element) []
  refine ⟨rfl, boxes, inside, met, s.tree, hflat,
    hplanted.housed hsize hfilled rfl rfl rfl rfl, ?_⟩
  have hend : walk p fuel s [] = s := by cases fuel <;> rfl
  rw [List.append_nil, hend] at hwalk
  rw [← hwalk]
  rfl

/-- **Layout runs are the flattening of the source.** -/
theorem runs_flatten {root : NodeId}
    (h : document p t warned element = .ok (report, t', warned'))
    (hroot : report.root = some root) :
    root = t.size ∧ ∃ layout, p.Lays element layout ∧
      ∀ i n, root ≤ i → t'.get? i = some n → n.excluded = false →
        n.kind = .root ∨ n.kind = .element →
        ∃ x boxes, n.element = some x ∧ (x, boxes) ∈ layout ∧ t'.RunOf n boxes := by
  obtain ⟨rfl, boxes, inside, met, s, hflat, hhoused, rfl⟩ := exists_walked h hroot
  refine ⟨rfl, _, ⟨boxes, inside, met, hflat, rfl⟩, ?_⟩
  have hrooted := hhoused.rooted
  obtain ⟨ids, hids, hnodup, hfound⟩ := hrooted.exists_layoutSubtree
  have hcollapse := amends_atEach amends_collapseText soleText_keep hids hnodup
  obtain ⟨ids', hids', hnodup', hfound'⟩ := (hrooted.collapse hcollapse).exists_layoutSubtree
  have hgather := amends_atEach amends_gatherOptions selectCut_keep hids' hnodup'
  have hbind := amends_bindCompanions t.size
    (atEach gatherOptions (atEach collapseText s t.size) t.size)
  intro i n hi hn hshown hkind
  obtain ⟨f₂, e₃, hf₂, h₃⟩ := hbind.exists_profile? (profile?_of_get? hn)
  obtain ⟨f₁, e₂, hf₁, rfl⟩ := hgather.exists_profile? hf₂
  obtain ⟨f, e₁, hf, rfl⟩ := hcollapse.exists_profile? hf₁
  have hlive : f.excluded = false := by
    have hexcluded := (congrArg Profile.excluded h₃).symm.trans hshown
    simp only [Profile.excluded_cut, Bool.or_eq_false_iff] at hexcluded
    exact hexcluded.1.1.1
  have hkind' : f.kind = .root ∨ f.kind = .element := by
    have heq : n.kind = f.kind := (congrArg Profile.kind h₃).trans (by simp)
    rwa [heq] at hkind
  have hnotext : f.kind ≠ .text := by rcases hkind' with h | h <;> rw [h] <;> decide
  have hpart : i = t.size ∨ f.documentParent ≠ none := by
    rcases Nat.lt_or_eq_of_le hi with hlt | heq
    · refine .inr ?_
      rcases hhoused.reached i f hlt hf with ⟨hexcluded, -⟩ | ⟨hparent, -⟩
      · exact absurd (hexcluded.symm.trans hlive) (by simp)
      · exact hparent
    · exact .inl heq.symm
  have hin : i ∈ ids := hfound i f hi hf hnotext hpart
  have hin' : i ∈ ids' := hfound' i _ hi hf₁ (by simpa using hnotext) (by simpa using hpart)
  rcases hhoused.laid i f hi hf with ⟨hidle, -⟩ | ⟨-, x, own, hx, hmem, hholds⟩
  · rcases hidle with htext | ⟨-, hexcluded⟩
    · exact absurd htext hnotext
    · exact absurd (hexcluded.symm.trans hlive) (by simp)
  refine ⟨x, own, (congrArg Profile.element h₃).trans (by simpa using hx), hmem, ?_⟩
  have hremain : Remain s _ := Remain.trans
    (hcollapse.remain fun i f text hf hc hk ↦ ?_)
    (Remain.trans (hgather.remain fun i f text hf hc _ ↦ ?_) (hbind.remain (by simp)))
  · refine hholds.runOf hremain hf hnotext hn e₁ e₂ e₃ ?_
    rw [h₃, if_pos hin, if_pos hin', selectCut, hf₁, Option.bind_some, if_pos hin,
      Profile.tag_cut]
  · split at hc
    · obtain ⟨f', _, _, hf', -, -, -, hk', -⟩ := soleText_eq_some_iff.1 hc
      obtain rfl := Option.some.inj (hf.symm.trans hf')
      exact absurd hk hk'
    · exact absurd hc (by simp)
  · split at hc
    · rw [selectCut, hf, Option.bind_some] at hc
      split at hc
      · exact (Option.some.inj hc).symm
      · exact absurd hc (by simp)
    · exact absurd hc (by simp)

/-- A root with a wrapper around a paragraph and some blanks, a single text in the paragraph, a
selection, and the paragraph once more. -/
def nested : Provider :=
  let element (tag display : String) (children : List Handle) : ProvidedElement :=
    ⟨.ok { BoxMeasure.empty with tag := tag, style := .ofList [("display", display)] }, children⟩
  let text (text : String) : ProvidedElement :=
    ⟨.ok { BoxMeasure.empty with tag := "#text", text := some text }, []⟩
  .ofElements [⟨"nested", some 0⟩] #[
    element "body" "block" [1, 5, 2], element "div" "contents" [2, 4],
    element "p" "block" [3], text "Hello", text "  ", element "select" "block" [6],
    element "option" "block" []]

/-- The root has the paragraph and the selection in its run, and neither of these has one. -/
theorem runs_flatten_nested : ∃ report t warned,
    document nested .empty [] 0 = .ok (report, t, warned) ∧ report.root = some 0 ∧
      t.toList.map (fun n ↦ (n.layoutChildren, n.text)) =
        [([2, 4], none), ([], none), ([], some "Hello"), ([], some "Hello"), ([], none),
          ([], none)] ∧
      ∃ layout, nested.Lays 0 layout ∧
        ∀ i n, 0 ≤ i → t.get? i = some n → n.excluded = false →
          n.kind = .root ∨ n.kind = .element →
          ∃ x boxes, n.element = some x ∧ (x, boxes) ∈ layout ∧ t.RunOf n boxes := by
  have hdocument : document nested .empty [] 0 = .ok (_, _, _) := rfl
  refine ⟨_, _, _, hdocument, rfl, ?_, (runs_flatten hdocument rfl).2⟩
  decide

end Ingest

end ViewCompiler
