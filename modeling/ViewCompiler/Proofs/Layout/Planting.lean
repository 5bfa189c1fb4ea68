import Mathlib.Data.List.Forall2
import ViewCompiler.Proofs.Layout.Flattening
import ViewCompiler.Proofs.Layout.Ingestion

/-!
# The walk makes the nodes of a flattening

`Planted` relates the trees before and after a part of the walk through a document. One run has
grown by the nodes of some boxes, and every new node with a box has the nodes of the boxes inside
in its own run. The parts compose as the flattening does (`Planted.append`, `Planted.around`), so
that the walk is followed along it (`Ingest.planted_walk`).

Nothing is assumed of the tree before, not even that it is sown: its nodes keep what they were,
except for the one run.
-/

namespace ViewCompiler

open NodeTree Sown

/-- What of a node the walk decides and the layout reads. -/
structure Profile where
  kind : NodeKind
  tag : String
  element : Option Handle
  depth : Nat
  excluded : Bool
  documentParent : Option NodeId
  run : List NodeId
  text : Option String
  deriving DecidableEq

def Node.profile (n : Node) : Profile :=
  ⟨n.kind, n.tag, n.element, n.depth, n.excluded, n.documentParent, n.layoutChildren, n.text⟩

/-- A profile after changes of what the layout makes of the node. -/
structure Profile.Like (f f' : Profile) : Prop where
  kind : f'.kind = f.kind
  tag : f'.tag = f.tag
  element : f'.element = f.element
  depth : f'.depth = f.depth
  documentParent : f'.documentParent = f.documentParent
  /-- A run of text keeps its text. -/
  text : f.kind = .text → f'.text = f.text

namespace Profile.Like

theorem refl (f : Profile) : f.Like f := ⟨rfl, rfl, rfl, rfl, rfl, fun _ ↦ rfl⟩

theorem trans {f f' f'' : Profile} (h : f.Like f') (h' : f'.Like f'') : f.Like f'' where
  kind := h'.kind.trans h.kind
  tag := h'.tag.trans h.tag
  element := h'.element.trans h.element
  depth := h'.depth.trans h.depth
  documentParent := h'.documentParent.trans h.documentParent
  text hk := (h'.text (h.kind.trans hk)).trans (h.text hk)

end Profile.Like

namespace NodeTree

variable {t t' : NodeTree}

def profile? (t : NodeTree) (i : NodeId) : Option Profile := (t.get? i).map Node.profile

theorem profile?_of_get? {i : NodeId} {n : Node} (h : t.get? i = some n) :
    t.profile? i = some n.profile := by
  rw [profile?, h, Option.map_some]

theorem profile?_eq_none_iff {i : NodeId} : t.profile? i = none ↔ t.size ≤ i := by
  rw [profile?, Option.map_eq_none_iff, get?_eq_none_iff]

theorem lt_size_of_profile? {i : NodeId} {f : Profile} (h : t.profile? i = some f) :
    i < t.size := by
  refine Nat.lt_of_not_le fun hle ↦ ?_
  rw [profile?_eq_none_iff.2 hle] at h
  exact absurd h (by simp)

theorem exists_profile? {i : NodeId} (h : i < t.size) : ∃ f, t.profile? i = some f := by
  obtain ⟨n, hn⟩ := exists_get? h
  exact ⟨_, profile?_of_get? hn⟩

theorem layoutRun_of_profile? {i : NodeId} {f : Profile} (h : t.profile? i = some f) :
    t.layoutRun i = f.run := by
  obtain ⟨n, hn, rfl⟩ := Option.map_eq_some_iff.1 h
  exact layoutRun_of_get? hn

theorem depthOf_of_profile? {i : NodeId} {f : Profile} (h : t.profile? i = some f) :
    t.depthOf i = f.depth := by
  obtain ⟨n, hn, rfl⟩ := Option.map_eq_some_iff.1 h
  rw [depthOf, links?_of_get? hn]
  rfl

theorem documentParent?_of_profile? {i : NodeId} {f : Profile} (h : t.profile? i = some f) :
    t.documentParent? i = f.documentParent := by
  obtain ⟨n, hn, rfl⟩ := Option.map_eq_some_iff.1 h
  exact documentParent?_of_get? hn

/-- A change of a node changes its profile only. -/
theorem profile?_modify (t : NodeTree) (id : NodeId) {f : Node → Node} (g : Profile → Profile)
    (hprofile : ∀ n, (f n).profile = g n.profile) (i : NodeId) :
    (t.modify id f).profile? i = if i = id then (t.profile? i).map g else t.profile? i := by
  rw [profile?, profile?, get?_modify]
  by_cases h : i = id
  · rw [if_pos h, if_pos h.symm, Option.map_map, Option.map_map]
    exact congrArg (Option.map · (t.get? i)) (funext hprofile)
  · rw [if_neg h, if_neg fun heq ↦ h heq.symm]

theorem profile?_alloc (t : NodeTree) (kind : NodeKind) (tag : String) (i : NodeId) :
    (t.alloc kind tag).2.profile? i =
      if i = t.size then some ⟨kind, tag, none, 0, false, none, [], none⟩ else t.profile? i := by
  rw [profile?, profile?, get?_alloc]
  split <;> rfl

/-- Trees that have the same profiles have the same nodes. -/
theorem size_le_of_profile? (h : ∀ i f, t.profile? i = some f → ∃ f', t'.profile? i = some f') :
    t.size ≤ t'.size := by
  refine Nat.le_of_not_lt fun hlt ↦ ?_
  obtain ⟨f, hf⟩ := exists_profile? hlt
  obtain ⟨f', hf'⟩ := h _ f hf
  exact Nat.lt_irrefl _ (lt_size_of_profile? hf')

/-- A tree with one more node, which is last in a run or in none. -/
def Adds (t t' : NodeTree) (layoutParent : Option NodeId) (new : Profile) : Prop :=
  ∀ i, t'.profile? i = if i = t.size then some new else (t.profile? i).map fun f ↦
    if layoutParent = some i then { f with run := f.run ++ [t.size] } else f

/-- **A new node attached to its parent.** -/
theorem adds_grafted (t : NodeTree) (kind : NodeKind) (tag : String) {parent : NodeId}
    {layoutParent : Option NodeId} (hparent : parent < t.size)
    (hlayout : ∀ p, layoutParent = some p → p < t.size) :
    Adds t (grafted t kind tag parent layoutParent) layoutParent
      ⟨kind, tag, none, t.depthOf (layoutParent.getD parent) + 1, false, layoutParent, [],
        none⟩ := by
  intro i
  have hsize : t.size < (t.alloc kind tag).2.size := by
    rw [size_alloc]
    omega
  obtain ⟨index, hattach⟩ := attach_eq hsize (Nat.lt_trans hparent hsize)
    (fun p hp ↦ Nat.lt_trans (hlayout p hp) hsize)
  have hfirst : ∀ i, ((t.alloc kind tag).2.modify parent (addChild t.size)).profile? i =
      (t.alloc kind tag).2.profile? i := fun i ↦ by
    rw [profile?_modify _ parent (f := addChild t.size) id fun _ ↦ rfl]
    simp
  rw [grafted, hattach, depthOf_alloc_above hparent hlayout,
    profile?_modify _ t.size (f := under _ _ _ _) (fun f ↦ { f with
      documentParent := layoutParent
      depth := t.depthOf (layoutParent.getD parent) + 1 }) fun _ ↦ rfl]
  cases layoutParent with
  | none =>
    rw [hfirst, profile?_alloc]
    split
    · rfl
    · simp
  | some p =>
    dsimp only
    rw [profile?_modify _ p (f := addMember t.size) (fun f ↦ { f with run := f.run ++ [t.size] })
      fun _ ↦ rfl, hfirst, profile?_alloc]
    split
    · rename_i hi
      have hne : i ≠ p := fun heq ↦ Nat.ne_of_gt (hlayout p rfl) (hi.symm.trans heq)
      rw [if_neg hne]
      rfl
    · by_cases hi : i = p <;> simp [hi, eq_comm (a := p)]

/-- What is done to the new node. -/
theorem Adds.modify {layoutParent : Option NodeId} {new : Profile} (h : Adds t t' layoutParent new)
    {f : Node → Node} (g : Profile → Profile) (hprofile : ∀ n, (f n).profile = g n.profile) :
    Adds t (t'.modify t.size f) layoutParent (g new) := by
  intro i
  rw [profile?_modify t' t.size g hprofile, h]
  split <;> rfl

end NodeTree

/-- A node that stands for a box. -/
def Box.Fits : Box → Profile → Prop
  | .text h s, f => f.kind = .text ∧ f.element = some h ∧ f.text = some s
  | .element h, f => f.kind = .element ∧ f.element = some h

theorem Box.Fits.like {b : Box} {f f' : Profile} (h : b.Fits f) (hlike : f.Like f') :
    b.Fits f' := by
  cases b with
  | text => exact ⟨hlike.kind.trans h.1, hlike.element.trans h.2.1, (hlike.text h.1).trans h.2.2⟩
  | element => exact ⟨hlike.kind.trans h.1, hlike.element.trans h.2⟩

namespace NodeTree

/-- A node stands for a box in the run of another one. -/
def Shows (t : NodeTree) (owner : NodeId) (b : Box) (c : NodeId) : Prop :=
  ∃ f, t.profile? c = some f ∧ b.Fits f ∧ f.documentParent = some owner ∧
    f.depth = t.depthOf owner + 1

/-- Nodes that come to no end of a run but are found again. -/
def Remain (t t' : NodeTree) : Prop :=
  ∀ i f, t.profile? i = some f → ∃ f', t'.profile? i = some f' ∧ f.Like f'

theorem Remain.refl (t : NodeTree) : Remain t t := fun _ f hf ↦ ⟨f, hf, .refl f⟩

variable {t t' : NodeTree}

theorem Remain.shows (h : Remain t t') {owner : NodeId} (hlt : owner < t.size) {b : Box}
    {c : NodeId} (hshows : t.Shows owner b c) : t'.Shows owner b c := by
  obtain ⟨f, hf, hfits, hparent, hdepth⟩ := hshows
  obtain ⟨f', hf', hlike⟩ := h c f hf
  obtain ⟨g, hg⟩ := exists_profile? hlt
  obtain ⟨g', hg', hglike⟩ := h owner g hg
  refine ⟨f', hf', hfits.like hlike, hlike.documentParent.trans hparent, ?_⟩
  rw [hlike.depth, hdepth, depthOf_of_profile? hg, depthOf_of_profile? hg', hglike.depth]

/-- Nodes that stand for the boxes inside another one, in order of their numbers. -/
structure Holds (t : NodeTree) (owner : NodeId) (boxes : List Box) (ids : List NodeId) :
    Prop where
  shown : List.Forall₂ (t.Shows owner) boxes ids
  ascending : (owner :: ids).Pairwise (· < ·)

namespace Holds

variable {owner : NodeId} {boxes : List Box} {ids : List NodeId}

theorem nil (t : NodeTree) (owner : NodeId) : t.Holds owner [] [] := ⟨.nil, by simp⟩

theorem remain (h : t.Holds owner boxes ids) (hlt : owner < t.size) (hr : Remain t t') :
    t'.Holds owner boxes ids :=
  ⟨h.shown.imp fun _ _ hs ↦ hr.shows hlt hs, h.ascending⟩

theorem shows (h : t.Holds owner boxes ids) {c : NodeId} (hc : c ∈ ids) :
    ∃ b ∈ boxes, t.Shows owner b c := by
  obtain ⟨shown, -⟩ := h
  induction shown with
  | nil => exact absurd hc List.not_mem_nil
  | cons hb _ ih =>
    rcases List.mem_cons.1 hc with rfl | hc
    · exact ⟨_, List.mem_cons_self, hb⟩
    · obtain ⟨b, hmem, hb⟩ := ih hc
      exact ⟨b, List.mem_cons_of_mem _ hmem, hb⟩

theorem lt_size (h : t.Holds owner boxes ids) {c : NodeId} (hc : c ∈ ids) : c < t.size := by
  obtain ⟨b, -, f, hf, -⟩ := h.shows hc
  exact lt_size_of_profile? hf

theorem lt (h : t.Holds owner boxes ids) {c : NodeId} (hc : c ∈ ids) : owner < c :=
  (List.pairwise_cons.1 h.ascending).1 c hc

end Holds

/-- A node with no run of its own, or one with the nodes of its boxes in its run. -/
def Laid (t : NodeTree) (layout : List (Handle × List Box)) (i : NodeId) (f : Profile) : Prop :=
  (f.kind = .text ∨ f.kind = .element ∧ f.excluded = true) ∧ f.run = [] ∨
    ((f.kind = .root ∨ f.kind = .element) ∧ f.excluded = false) ∧
      ∃ h boxes, f.element = some h ∧ (h, boxes) ∈ layout ∧ t.Holds i boxes f.run

theorem Laid.mono {layout layout' : List (Handle × List Box)} {i : NodeId} {f : Profile}
    (h : t.Laid layout i f) (hi : i < t.size) (hr : Remain t t') (hsub : layout ⊆ layout') :
    t'.Laid layout' i f := by
  refine h.imp_right fun ⟨hkind, x, boxes, hx, hmem, hholds⟩ ↦ ?_
  exact ⟨hkind, x, boxes, hx, hsub hmem, hholds.remain hi hr⟩

end NodeTree

/-- What has become of a tree when some boxes have been made nodes of, in the run of a node. -/
structure Planted (owner : NodeId) (boxes : List Box) (inside : List (Handle × List Box))
    (ids : List NodeId) (t t' : NodeTree) : Prop where
  old : ∀ i < t.size, t'.profile? i = (t.profile? i).map fun f ↦
    if i = owner then { f with run := f.run ++ ids } else f
  fresh : ∀ c ∈ ids, t.size ≤ c
  holds : t'.Holds owner boxes ids
  laid : ∀ i f, t.size ≤ i → t'.profile? i = some f → t'.Laid inside i f
  /-- What is not excluded is in the run, or in that of a new node. -/
  reached : ∀ i f, t.size ≤ i → t'.profile? i = some f →
    f.excluded = true ∧ f.documentParent = none ∨
      f.documentParent ≠ none ∧
        ∃ a, a < i ∧ i ∈ t'.layoutRun a ∧ (a = owner ∨ t.size ≤ a)

namespace Planted

variable {owner : NodeId} {boxes boxes' : List Box} {inside inside' : List (Handle × List Box)}
  {ids ids' : List NodeId} {t t' t'' : NodeTree}

theorem profile? (h : Planted owner boxes inside ids t t') {i : NodeId} {f : Profile}
    (hf : t.profile? i = some f) :
    t'.profile? i = some (if i = owner then { f with run := f.run ++ ids } else f) := by
  rw [h.old i (lt_size_of_profile? hf), hf, Option.map_some]

theorem remain (h : Planted owner boxes inside ids t t') : Remain t t' := fun i f hf ↦ by
  refine ⟨_, h.profile? hf, ?_⟩
  split
  · exact ⟨rfl, rfl, rfl, rfl, rfl, fun _ ↦ rfl⟩
  · exact .refl f

/-- A node that was there before is what it was, unless it is the owner of the run. -/
theorem profile?_of_ne (h : Planted owner boxes inside ids t t') {i : NodeId} {f : Profile}
    (hi : i < t.size) (hne : i ≠ owner) (hf : t'.profile? i = some f) : t.profile? i = some f := by
  obtain ⟨g, hg⟩ := exists_profile? hi
  have heq := (h.profile? hg).symm.trans hf
  rw [if_neg hne] at heq
  exact hg.trans heq

theorem size_le (h : Planted owner boxes inside ids t t') : t.size ≤ t'.size :=
  size_le_of_profile? fun _ _ hf ↦ ⟨_, h.profile? hf⟩

/-- Runs only grow. -/
theorem mem_layoutRun (h : Planted owner boxes inside ids t t') {i a : NodeId}
    (hi : i ∈ t.layoutRun a) : i ∈ t'.layoutRun a := by
  obtain ⟨f, hf⟩ := exists_profile? (lt_size_of_mem_layoutRun hi)
  rw [layoutRun_of_profile? hf] at hi
  rw [layoutRun_of_profile? (h.profile? hf)]
  split
  · exact List.mem_append_left _ hi
  · exact hi

theorem refl (t : NodeTree) (owner : NodeId) : Planted owner [] [] [] t t where
  old i _ := by
    cases t.profile? i <;> simp
  fresh _ hc := absurd hc List.not_mem_nil
  holds := .nil t owner
  laid _ _ hi hf := absurd (lt_size_of_profile? hf) (Nat.not_lt.2 hi)
  reached _ _ hi hf := absurd (lt_size_of_profile? hf) (Nat.not_lt.2 hi)

/-- **One part after another.** -/
theorem append (hlt : owner < t.size) (h : Planted owner boxes inside ids t t')
    (h' : Planted owner boxes' inside' ids' t' t'') :
    Planted owner (boxes ++ boxes') (inside ++ inside') (ids ++ ids') t t'' where
  old i hi := by
    rw [h'.old i (Nat.lt_of_lt_of_le hi h.size_le), h.old i hi, Option.map_map]
    refine congrArg (Option.map · (t.profile? i)) (funext fun f ↦ ?_)
    by_cases hown : i = owner <;> simp [hown]
  fresh c hc := (List.mem_append.1 hc).elim (h.fresh c) fun hc ↦
    Nat.le_trans h.size_le (h'.fresh c hc)
  holds := by
    have hlt' : owner < t'.size := Nat.lt_of_lt_of_le hlt h.size_le
    refine ⟨List.rel_append (h.holds.remain hlt' h'.remain).shown h'.holds.shown, ?_⟩
    rw [← List.cons_append, List.pairwise_append]
    refine ⟨h.holds.ascending, (List.pairwise_cons.1 h'.holds.ascending).2, fun a ha b hb ↦ ?_⟩
    have hle := h'.fresh b hb
    rcases List.mem_cons.1 ha with rfl | ha
    · exact Nat.lt_of_lt_of_le hlt' hle
    · exact Nat.lt_of_lt_of_le (h.holds.lt_size ha) hle
  laid i f hi hf := by
    rcases Nat.lt_or_ge i t'.size with hi' | hi'
    · have hg := h'.profile?_of_ne hi' (Nat.ne_of_gt (Nat.lt_of_lt_of_le hlt hi)) hf
      exact (h.laid i f hi hg).mono hi' h'.remain (List.subset_append_left _ _)
    · exact (h'.laid i f hi' hf).mono (lt_size_of_profile? hf) (.refl _)
        (List.subset_append_right _ _)
  reached i f hi hf := by
    rcases Nat.lt_or_ge i t'.size with hi' | hi'
    · have hg := h'.profile?_of_ne hi' (Nat.ne_of_gt (Nat.lt_of_lt_of_le hlt hi)) hf
      exact (h.reached i f hi hg).imp_right fun ⟨hparent, a, hlt, hmem, ha⟩ ↦
        ⟨hparent, a, hlt, h'.mem_layoutRun hmem, ha⟩
    · exact (h'.reached i f hi' hf).imp_right fun ⟨hparent, a, hlt, hmem, ha⟩ ↦
        ⟨hparent, a, hlt, hmem, ha.imp_right (Nat.le_trans h.size_le)⟩

section Adds

variable {new : Profile}

/-- A node that was there before is the one that was. -/
theorem old_of_adds {run : Option NodeId} (h : Adds t t' run new) (i : NodeId) (hi : i < t.size) :
    t'.profile? i = (t.profile? i).map fun f ↦
      if run = some i then { f with run := f.run ++ [t.size] } else f := by
  rw [h, if_neg (Nat.ne_of_lt hi)]

theorem eq_of_adds {run : Option NodeId} (h : Adds t t' run new) {i : NodeId} {f : Profile}
    (hi : t.size ≤ i) (hf : t'.profile? i = some f) : i = t.size ∧ f = new := by
  rw [h] at hf
  split at hf
  · exact ⟨‹_›, (Option.some.inj hf).symm⟩
  · rw [profile?_eq_none_iff.2 hi] at hf
    exact absurd hf (by simp)

/-- An excluded node. -/
theorem hidden (h : Adds t t' none new) (hkind : new.kind = .element)
    (hexcluded : new.excluded = true) (hparent : new.documentParent = none)
    (hrun : new.run = []) (owner : NodeId) :
    Planted owner [] [] [] t t' where
  old i hi := by
    rw [old_of_adds h i hi]
    refine congrArg (Option.map · (t.profile? i)) (funext fun f ↦ ?_)
    simp
  fresh _ hc := absurd hc List.not_mem_nil
  holds := .nil t' owner
  laid i f hi hf := by
    obtain ⟨-, rfl⟩ := eq_of_adds h hi hf
    exact .inl ⟨.inr ⟨hkind, hexcluded⟩, hrun⟩
  reached i f hi hf := by
    obtain ⟨-, rfl⟩ := eq_of_adds h hi hf
    exact .inl ⟨hexcluded, hparent⟩

variable (hlt : owner < t.size) (h : Adds t t' (some owner) new)
  (hparent : new.documentParent = some owner) (hdepth : new.depth = t.depthOf owner + 1)
  (hrun : new.run = [])

include hlt h

theorem mem_layoutRun_adds : t.size ∈ t'.layoutRun owner := by
  obtain ⟨g, hg⟩ := exists_profile? hlt
  have howner := old_of_adds h owner hlt
  rw [hg, Option.map_some, if_pos rfl] at howner
  rw [layoutRun_of_profile? howner]
  exact List.mem_append_right _ (List.mem_singleton_self _)

include hparent hdepth

theorem shows_adds {b : Box} (hfits : b.Fits new) : t'.Shows owner b t.size := by
  obtain ⟨g, hg⟩ := exists_profile? hlt
  have howner := old_of_adds h owner hlt
  rw [hg, Option.map_some, if_pos rfl] at howner
  refine ⟨new, by rw [h, if_pos rfl], hfits, hparent, ?_⟩
  rw [hdepth, depthOf_of_profile? hg, depthOf_of_profile? howner]

include hrun

/-- A run of text. -/
theorem leaf {x : Handle} {s : String} (hfits : (Box.text x s).Fits new) :
    Planted owner [.text x s] [] [t.size] t t' where
  old i hi := by
    rw [old_of_adds h i hi]
    refine congrArg (Option.map · (t.profile? i)) (funext fun f ↦ ?_)
    simp [eq_comm (a := owner)]
  fresh c hc := Nat.le_of_eq (List.mem_singleton.1 hc).symm
  holds := ⟨.cons (shows_adds hlt h hparent hdepth hfits) .nil, by simpa using hlt⟩
  laid i f hi hf := by
    obtain ⟨-, rfl⟩ := eq_of_adds h hi hf
    exact .inl ⟨.inl hfits.1, hrun⟩
  reached i f hi hf := by
    obtain ⟨rfl, rfl⟩ := eq_of_adds h hi hf
    exact .inr ⟨by simp [hparent], owner, hlt, mem_layoutRun_adds hlt h, .inl rfl⟩

/-- **An element with a box, and what is inside it.** -/
theorem around {x : Handle} (hfits : (Box.element x).Fits new)
    (hshown : new.excluded = false) {own : List Box}
    {members : List NodeId} (hinner : Planted t.size own inside members t' t'') :
    Planted owner [.element x] ((x, own) :: inside) [t.size] t t'' := by
  have hnew : t'.profile? t.size = some new := by rw [h, if_pos rfl]
  have hsize : t.size < t'.size := lt_size_of_profile? hnew
  have hne : owner ≠ t.size := Nat.ne_of_lt hlt
  have howner : owner < t'.size := Nat.lt_trans hlt hsize
  have hnew' : t''.profile? t.size = some { new with run := members } := by
    rw [hinner.profile? hnew, if_pos rfl, hrun, List.nil_append]
  have heq : ∀ {i}, t.size ≤ i → i < t'.size → i = t.size := fun hi hi' ↦ by
    obtain ⟨g, hg⟩ := exists_profile? hi'
    exact (eq_of_adds h hi hg).1
  refine ⟨fun i hi ↦ ?_, fun c hc ↦ Nat.le_of_eq (List.mem_singleton.1 hc).symm, ?_,
    fun i f hi hf ↦ ?_, fun i f hi hf ↦ ?_⟩
  · have hi' : i ≠ t.size := Nat.ne_of_lt hi
    rw [hinner.old i (Nat.lt_trans hi hsize), old_of_adds h i hi, Option.map_map]
    refine congrArg (Option.map · (t.profile? i)) (funext fun f ↦ ?_)
    simp [hi', eq_comm (a := owner)]
  · exact ⟨.cons (hinner.remain.shows howner (shows_adds hlt h hparent hdepth hfits)) .nil,
      by simpa using hlt⟩
  · rcases Nat.lt_or_ge i t'.size with hi' | hi'
    · obtain rfl := heq hi hi'
      obtain rfl := Option.some.inj (hnew'.symm.trans hf)
      exact .inr ⟨⟨.inr hfits.1, hshown⟩, x, own, hfits.2, List.mem_cons_self, hinner.holds⟩
    · exact (hinner.laid i f hi' hf).mono (lt_size_of_profile? hf) (.refl _)
        (List.subset_cons_self _ _)
  · rcases Nat.lt_or_ge i t'.size with hi' | hi'
    · obtain rfl := heq hi hi'
      obtain rfl := Option.some.inj (hnew'.symm.trans hf)
      exact .inr ⟨by simp [hparent], owner, hlt,
        hinner.mem_layoutRun (mem_layoutRun_adds hlt h), .inl rfl⟩
    · refine (hinner.reached i f hi' hf).imp_right fun ⟨hparent, a, halt, hmem, ha⟩ ↦
        ⟨hparent, a, halt, hmem, .inr ?_⟩
      rcases ha with rfl | ha
      · exact Nat.le_refl _
      · exact Nat.le_of_lt (Nat.lt_of_lt_of_le hsize ha)

end Adds

end Planted

namespace Ingest

variable {p : Provider}

/-! ### One element -/

theorem visited_report (s : State) (errors : List StyleError) :
    (report s errors).visited = s.visited := by
  rw [report]
  induction errors generalizing s with
  | nil => rfl
  | cons e r ih =>
    rw [List.foldl_cons, ih]
    split <;> rfl

theorem profile?_fill (s : State) (id : NodeId) (element : Handle) (m : BoxMeasure) (i : NodeId) :
    (fill s id element m).tree.profile? i = if i = id then
      (s.tree.profile? i).map fun f ↦ { f with element := some element, text := textOf m }
      else s.tree.profile? i := by
  rw [fill]
  dsimp only
  rw [profile?_modify _ id (fun f ↦ { f with element := some element, text := textOf m })
    fun _ ↦ rfl, tree_report]

theorem visited_fill (s : State) (id : NodeId) (element : Handle) (m : BoxMeasure) :
    (fill s id element m).visited = s.visited := by
  rw [fill]
  dsimp only
  rw [visited_report]

/-- A node excluded. -/
def hide (s : State) (id : NodeId) : State :=
  { s with tree := s.tree.modify id fun n ↦ { n with excluded := true } }

theorem visited_hide (s : State) (id : NodeId) : (hide s id).visited = s.visited := rfl

/-- An element that was measured makes one node, which is in a run if it has a box. -/
theorem meetElement_eq (s : State) (task : Task) (m : BoxMeasure) :
    meetElement p s task m = match (Style.ofMap m.style).display with
      | .none => (hide (elementNode s task m none) s.tree.size, [])
      | .contents => (hide (elementNode s task m none) s.tree.size,
          tasks p s.tree.size task.layoutParent task.element)
      | _ => (elementNode s task m (some task.layoutParent),
          tasks p s.tree.size s.tree.size task.element) := by
  unfold meetElement
  cases (Style.ofMap m.style).display <;> rfl

/-- An element with a box makes a node in the run. -/
theorem meetElement_box (s : State) (task : Task) {m : BoxMeasure}
    (hnone : (Style.ofMap m.style).display ≠ .none)
    (hcontents : (Style.ofMap m.style).display ≠ .contents) :
    meetElement p s task m = (elementNode s task m (some task.layoutParent),
      tasks p s.tree.size s.tree.size task.element) := by
  rw [meetElement_eq]
  cases hd : (Style.ofMap m.style).display with
  | none => exact absurd hd hnone
  | contents => exact absurd hd hcontents
  | _ => rfl

theorem visited_meet (s : State) (task : Task) : (meet p s task).1.visited = s.visited := by
  rw [meet]
  split
  · rfl
  · split
    · rw [meetText]
      dsimp only
      split <;> rfl
    · rename_i m _ _
      have hnode : ∀ run, (elementNode s task m run).visited = s.visited := fun run ↦ by
        rw [elementNode, visited_fill]
      rw [meetElement_eq]
      split
      · exact (visited_hide _ _).trans (hnode none)
      · exact (visited_hide _ _).trans (hnode none)
      · exact hnode _

section Meet

variable (s : State) (task : Task)

variable {s} in
/-- A node excluded when it has just been made. -/
theorem adds_hide {s' : State} {new : Profile} (h : Adds s.tree s'.tree none new) :
    Adds s.tree (hide s' s.tree.size).tree none { new with excluded := true } := by
  rw [hide]
  exact h.modify (fun f ↦ { f with excluded := true }) fun _ ↦ rfl

/-- The node of an element, with what was measured of it. -/
theorem adds_elementNode (m : BoxMeasure) {layoutParent : Option NodeId}
    (hparent : task.parent < s.tree.size)
    (hlayout : ∀ p, layoutParent = some p → p < s.tree.size) :
    Adds s.tree (elementNode s task m layoutParent).tree layoutParent
      ⟨.element, Text.asciiLower m.tag, some task.element,
        s.tree.depthOf (layoutParent.getD task.parent) + 1, false, layoutParent, [],
        textOf m⟩ := by
  intro i
  rw [elementNode, profile?_fill,
    adds_grafted s.tree .element (Text.asciiLower m.tag) hparent hlayout]
  split <;> rfl

/-- An element is met as the text or the element that it is. -/
theorem meet_eq {m : BoxMeasure} (hm : p.measure task.element = .ok m) :
    meet p s task = if m.isText then (meetText s task m, []) else meetElement p s task m := by
  rw [meet, hm]
  rfl

variable (hparent : task.parent < s.tree.size)

include hparent

theorem planted_nothing (hpart : p.part task.element = .nothing) (owner : NodeId) :
    (meet p s task).2 = [] ∧ Planted owner [] [] [] s.tree (meet p s task).1.tree := by
  have hnone : ∀ q, (none : Option NodeId) = some q → q < s.tree.size := by simp
  cases hm : p.measure task.element with
  | error e =>
    rw [meet, hm]
    refine ⟨rfl, ?_⟩
    have hadds := (adds_grafted s.tree .element "" hparent hnone).modify
      (f := fun n ↦ { n with element := some task.element, excluded := true })
      (fun f ↦ { f with element := some task.element, excluded := true }) fun _ ↦ rfl
    exact .hidden hadds rfl rfl rfl rfl owner
  | ok m =>
    rw [Provider.part, hm] at hpart
    rw [meet_eq s task hm]
    rcases BoxMeasure.part_eq_nothing_iff.1 hpart with ⟨htext, hblank⟩ | ⟨htext, hdisplay⟩
    · rw [htext, if_pos rfl, meetText, if_pos hblank]
      exact ⟨rfl, .refl _ owner⟩
    · rw [htext, if_neg Bool.false_ne_true, meetElement_eq, hdisplay]
      have hadds := adds_hide (adds_elementNode s task m hparent hnone)
      exact ⟨rfl, .hidden hadds rfl rfl rfl rfl owner⟩

theorem planted_text {text : String} (hpart : p.part task.element = .text text)
    (hlayout : task.layoutParent < s.tree.size) :
    (meet p s task).2 = [] ∧ Planted task.layoutParent [.text task.element text] []
      [s.tree.size] s.tree (meet p s task).1.tree := by
  have hsome : ∀ q, some task.layoutParent = some q → q < s.tree.size :=
    fun q hq ↦ Option.some.inj hq ▸ hlayout
  obtain ⟨m, hm, hpart⟩ := p.exists_measure hpart nofun
  obtain ⟨htext, hblank, rfl⟩ := BoxMeasure.part_eq_text_iff.1 hpart
  have hadds := (adds_grafted s.tree .text textTag hparent hsome).modify
    (f := fun n ↦ { n with
      element := some task.element
      bounds := m.bounds
      text := some (Text.collapse (m.text.getD ""))
      style := Style.ofMap m.style })
    (fun f ↦ { f with
      element := some task.element
      text := some (Text.collapse (m.text.getD "")) }) fun _ ↦ rfl
  rw [meet_eq s task hm, htext, if_pos rfl, meetText, if_neg (by simp [hblank])]
  exact ⟨rfl, .leaf hlayout hadds rfl rfl rfl ⟨rfl, rfl, rfl⟩⟩

theorem planted_wrapper (hpart : p.part task.element = .wrapper) (owner : NodeId) :
    (meet p s task).2 = tasks p s.tree.size task.layoutParent task.element ∧
      s.tree.size < (meet p s task).1.tree.size ∧
      Planted owner [] [] [] s.tree (meet p s task).1.tree := by
  have hnone : ∀ q, (none : Option NodeId) = some q → q < s.tree.size := by simp
  obtain ⟨m, hm, hpart⟩ := p.exists_measure hpart nofun
  obtain ⟨htext, hdisplay⟩ := BoxMeasure.part_eq_wrapper_iff.1 hpart
  have hadds := adds_hide (adds_elementNode s task m hparent hnone)
  have hnew := hadds s.tree.size
  rw [if_pos rfl] at hnew
  rw [meet_eq s task hm, htext, if_neg Bool.false_ne_true, meetElement_eq, hdisplay]
  exact ⟨rfl, lt_size_of_profile? hnew, .hidden hadds rfl rfl rfl rfl owner⟩

theorem adds_box (hpart : p.part task.element = .box) (hlayout : task.layoutParent < s.tree.size) :
    (meet p s task).2 = tasks p s.tree.size s.tree.size task.element ∧
      ∃ new, Adds s.tree (meet p s task).1.tree (some task.layoutParent) new ∧
        new.documentParent = some task.layoutParent ∧
        new.depth = s.tree.depthOf task.layoutParent + 1 ∧ new.run = [] ∧
        (Box.element task.element).Fits new ∧ new.excluded = false := by
  have hsome : ∀ q, some task.layoutParent = some q → q < s.tree.size :=
    fun q hq ↦ Option.some.inj hq ▸ hlayout
  obtain ⟨m, hm, hpart⟩ := p.exists_measure hpart nofun
  obtain ⟨htext, hdisplay⟩ := BoxMeasure.part_eq_box_iff.1 hpart
  have hadds := adds_elementNode s task m hparent hsome
  rw [meet_eq s task hm, htext, if_neg Bool.false_ne_true,
    meetElement_box s task hdisplay.1 hdisplay.2]
  exact ⟨rfl, _, hadds, rfl, rfl, rfl, ⟨rfl, rfl⟩, rfl⟩

end Meet

/-! ### The walk -/

/-- The walk comes from some tasks to others, with steps to spare, and has made the nodes of some
boxes. -/
def Plants (p : Provider) (owner : NodeId) (boxes : List Box) (inside : List (Handle × List Box))
    (met : List Handle) (fuel : Nat) (s : State) (tasks : List Task) (others : Nat)
    (rest : List Task) : Prop :=
  ∃ fuel' s' ids, walk p fuel s tasks = walk p fuel' s' rest ∧ s'.visited = met ∧
    potential p met + others ≤ fuel' ∧ Planted owner boxes inside ids s.tree s'.tree

/-- From some tasks to others, and from these to yet others. -/
theorem Plants.append {owner : NodeId} {boxes boxes' : List Box}
    {inside inside' : List (Handle × List Box)} {met met' : List Handle} {fuel : Nat} {s : State}
    {tasks tasks' rest : List Task} {others others' : Nat} (howner : owner < s.tree.size)
    (h : Plants p owner boxes inside met fuel s tasks others tasks')
    (h' : ∀ fuel' s', s'.visited = met → s.tree.size ≤ s'.tree.size →
      potential p met + others ≤ fuel' →
      Plants p owner boxes' inside' met' fuel' s' tasks' others' rest) :
    Plants p owner (boxes ++ boxes') (inside ++ inside') met' fuel s tasks others' rest := by
  obtain ⟨fuel₁, s₁, ids, hwalk, hmet, hfuel, hplanted⟩ := h
  obtain ⟨fuel₂, s₂, ids', hwalk', hmet', hfuel', hplanted'⟩ :=
    h' fuel₁ s₁ hmet hplanted.size_le hfuel
  exact ⟨fuel₂, s₂, ids ++ ids', hwalk.trans hwalk', hmet', hfuel',
    hplanted.append howner hplanted'⟩

section

variable {fuel : Nat} {s : State} {task : Task} (hnew : task.element ∉ s.visited)
  {owner : NodeId} {boxes : List Box} {others : Nat} {rest : List Task}

include hnew

/-- A new element with nothing inside that is to be met. -/
theorem Plants.alone {ids : List NodeId}
    (hmade : (meet p { s with visited := task.element :: s.visited } task).2 = [] ∧
      Planted owner boxes [] ids s.tree
        (meet p { s with visited := task.element :: s.visited } task).1.tree)
    (hfuel : potential p (task.element :: s.visited) + others ≤ fuel) :
    Plants p owner boxes [] (task.element :: s.visited) (fuel + 1) s (task :: rest) others
      rest := by
  refine ⟨fuel, _, ids, (walk_new hnew rest).trans ?_, visited_meet _ _, hfuel, hmade.2⟩
  rw [hmade.1, List.nil_append]

/-- A new element around others. -/
theorem Plants.around {owner' : NodeId} {own : List Box}
    {inside inside' : List (Handle × List Box)} {met : List Handle} {tasks : List Task}
    (htasks : (meet p { s with visited := task.element :: s.visited } task).2 = tasks)
    (hinner : Plants p owner' own inside met fuel
      (meet p { s with visited := task.element :: s.visited } task).1 (tasks ++ rest) others rest)
    (hplanted : ∀ {ids : List NodeId} {t : NodeTree}, Planted owner' own inside ids
      (meet p { s with visited := task.element :: s.visited } task).1.tree t →
        ∃ ids', Planted owner boxes inside' ids' s.tree t) :
    Plants p owner boxes inside' met (fuel + 1) s (task :: rest) others rest := by
  obtain ⟨fuel', s', ids, hwalk, hmet, hfuel, hown⟩ := hinner
  obtain ⟨ids', hall⟩ := hplanted hown
  refine ⟨fuel', s', ids', (walk_new hnew rest).trans ?_, hmet, hfuel, hall⟩
  rw [htasks]
  exact hwalk

end

/-- From the elements that are to be met next, the walk makes the nodes of some boxes. Elements that
are to be met later wait, and so many steps are left that they can be met too. -/
def Follows (p : Provider) (met hs : List Handle) (boxes : List Box)
    (inside : List (Handle × List Box)) (met' : List Handle) : Prop :=
  ∀ fuel s, s.visited = met → ∀ {parent owner}, parent < s.tree.size → owner < s.tree.size →
    ∀ others, potential p met + hs.length + others ≤ fuel → ∀ rest,
      Plants p owner boxes inside met' fuel s (hs.map (Task.mk parent owner ·) ++ rest) others rest

/-- A new element and then the others. -/
theorem Follows.cons {met met₁ met' : List Handle} {h : Handle} {hs : List Handle}
    {own boxes : List Box} {inside₁ inside₂ : List (Handle × List Box)} (hnew : h ∉ met)
    (hfirst : ∀ fuel s, s.visited = met → ∀ {parent owner}, parent < s.tree.size →
      owner < s.tree.size → ∀ others,
      potential p (h :: met) + (p.children h).length + others ≤ fuel → ∀ rest,
        Plants p owner own inside₁ met₁ (fuel + 1) s (⟨parent, owner, h⟩ :: rest) others rest)
    (hothers : Follows p met₁ hs boxes inside₂ met') :
    Follows p met (h :: hs) (own ++ boxes) (inside₁ ++ inside₂) met' := by
  intro fuel s hmet parent owner hparent howner others hfuel rest
  have hless := potential_cons p hnew
  rw [List.length_cons] at hfuel
  obtain ⟨fuel, rfl⟩ : ∃ n, fuel = n + 1 := ⟨fuel - 1, by omega⟩
  have hmade := hfirst fuel s hmet hparent howner (hs.length + others) (by omega)
    (hs.map (Task.mk parent owner ·) ++ rest)
  exact hmade.append howner fun fuel' s' hmet' hsize hfuel' ↦ hothers fuel' s' hmet'
    (Nat.lt_of_lt_of_le hparent hsize) (Nat.lt_of_lt_of_le howner hsize) others (by omega) rest

/-- **The walk makes the nodes of the flattening.** -/
theorem planted_walk {met met' : List Handle} {hs : List Handle} {boxes : List Box}
    {inside : List (Handle × List Box)} (h : Flattens p met hs boxes inside met') :
    Follows p met hs boxes inside met' := by
  induction h with
  | nil => exact fun fuel s hmet _ _ _ _ _ hfuel _ ↦
      ⟨fuel, s, [], rfl, hmet, by simpa using hfuel, .refl _ _⟩
  | again old _ ih =>
    intro fuel s hmet parent owner hparent howner others hfuel rest
    rw [List.length_cons] at hfuel
    obtain ⟨fuel, rfl⟩ : ∃ n, fuel = n + 1 := ⟨fuel - 1, by omega⟩
    rw [Plants, List.map_cons, List.cons_append, walk_old (hmet.symm ▸ old)]
    exact ih fuel s hmet hparent howner others (by omega) rest
  | @nothing met met' h hs boxes inside new part _ ih =>
    show Follows p met (h :: hs) ([] ++ boxes) ([] ++ inside) met'
    refine .cons new ?_ ih
    rintro fuel s rfl parent owner hparent - others hfuel rest
    have hspare : potential p (h :: s.visited) + others ≤ fuel := by omega
    exact .alone new (planted_nothing { s with visited := h :: s.visited } ⟨parent, owner, h⟩
      hparent part owner) hspare
  | @text met met' h hs boxes inside text new part _ ih =>
    show Follows p met (h :: hs) ([.text h text] ++ boxes) ([] ++ inside) met'
    refine .cons new ?_ ih
    rintro fuel s rfl parent owner hparent howner others hfuel rest
    have hspare : potential p (h :: s.visited) + others ≤ fuel := by omega
    exact .alone new (planted_text { s with visited := h :: s.visited } ⟨parent, owner, h⟩
      hparent part howner) hspare
  | @wrapper met _ _ h _ _ _ _ _ new part _ _ ih₁ ih₂ =>
    refine .cons new ?_ ih₂
    rintro fuel s rfl parent owner hparent howner others hfuel rest
    obtain ⟨htasks, hsize, hplanted⟩ := planted_wrapper { s with visited := h :: s.visited }
      ⟨parent, owner, h⟩ hparent part owner
    have hinner := ih₁ fuel _ (visited_meet _ _) hsize
      (Nat.lt_of_lt_of_le howner hplanted.size_le) others hfuel rest
    exact .around new htasks hinner fun hown ↦ ⟨_, hplanted.append howner hown⟩
  | @box met _ met' h hs own boxes inside₁ inside₂ new part _ _ ih₁ ih₂ =>
    show Follows p met (h :: hs) ([.element h] ++ boxes) ((h, own) :: inside₁ ++ inside₂) met'
    refine .cons new ?_ ih₂
    rintro fuel s rfl parent owner hparent howner others hfuel rest
    obtain ⟨htasks, n, hadds, hdocument, hdepth, hrun, hfits, hshown⟩ :=
      adds_box { s with visited := h :: s.visited } ⟨parent, owner, h⟩ hparent part howner
    have hnew := hadds s.tree.size
    rw [if_pos rfl] at hnew
    have hsize := lt_size_of_profile? hnew
    have hinner := ih₁ fuel _ (visited_meet _ _) hsize hsize others hfuel rest
    exact .around new htasks hinner fun hown ↦
      ⟨_, Planted.around howner hadds hdocument hdepth hrun hfits hshown hown⟩

end Ingest

end ViewCompiler
