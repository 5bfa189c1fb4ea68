import ViewCompiler.Proofs.Layout.Origins
import ViewCompiler.Proofs.Layout.Steps

/-!
# What nodes say

In words the output takes from a node its text, its labels, its attributes in the source, its font
family, and the style that it refers to (`Node.said`). Most of what is done to nodes is about their
boxes and their places, so that whatever holds of what all nodes say still holds afterwards
(`NodeTree.AllSay`): new nodes say nothing, and being attached, placed, classified or measured in
depth changes no word.

A node refers to a style only because attributes have been shared, which is the last thing that
happens to a tree. Before that no node has one (`NodeTree.Unstyled`), which lasts like anything else
that nodes say, once the nodes of new documents have none.
-/

namespace ViewCompiler

/-- What the output takes from a node in words. -/
structure Said where
  text : Option String
  entries : List String
  attributes : SortedMap String String
  family : Option String
  styleRef : Option String

/-- What a new node says. -/
def Said.nothing : Said := ⟨none, [], .empty, none, none⟩

/-- The property in which a style has the font families. -/
def Style.familyProperty : String := "font-family"

def Node.said (n : Node) : Said :=
  ⟨n.text, n.entries, n.sourceAttributes, n.style.get? Style.familyProperty, n.styleRef⟩

theorem Style.get?_set_of_ne (s : Style) {property property' : String} (hne : property ≠ property')
    (value : String) : (s.set property value).get? property' = s.get? property' := by
  rw [get?, set, SortedMap.get?_insert, if_neg (Ne.symm hne)]
  rfl

namespace NodeTree

/-- What every node says satisfies `Q`. -/
def AllSay (Q : Said → Prop) (t : NodeTree) : Prop := ∀ i n, t.get? i = some n → Q n.said

namespace AllSay

variable {Q : Said → Prop} {t : NodeTree}

theorem empty (Q : Said → Prop) : NodeTree.empty.AllSay Q := fun i n h ↦
  absurd h (by simp [NodeTree.empty, get?])

/-- **A change of what one node says.** -/
theorem modify_of (h : t.AllSay Q) {f : Node → Node} (id : NodeId)
    (hf : ∀ n, t.get? id = some n → Q (f n).said) : (t.modify id f).AllSay Q := fun i n hn ↦ by
  rw [get?_modify] at hn
  split at hn
  · subst id
    obtain ⟨m, hm, rfl⟩ := Option.map_eq_some_iff.1 hn
    exact hf m hm
  · exact h i n hn

/-- **A change of anything else.** -/
theorem modify (h : t.AllSay Q) {f : Node → Node} (hf : ∀ n, (f n).said = n.said) (id : NodeId) :
    (t.modify id f).AllSay Q :=
  h.modify_of id fun n hn ↦ (hf n).symm ▸ h id n hn

theorem foldl {α : Type} {f : NodeTree → α → NodeTree}
    (hf : ∀ t a, t.AllSay Q → (f t a).AllSay Q) (l : List α) (h : t.AllSay Q) :
    (l.foldl f t).AllSay Q :=
  List.foldlRecOn l f h fun t ht a _ ↦ hf t a ht

theorem setRenderParent (h : t.AllSay Q) {child parent : NodeId} {t' : NodeTree}
    (hok : t.setRenderParent child parent = .ok t') : t'.AllSay Q := by
  unfold NodeTree.setRenderParent at hok
  split at hok
  · exact absurd hok (by simp)
  · exact absurd hok (by simp)
  · split at hok
    · exact absurd hok (by simp)
    · rw [← Except.ok.inj hok]
      exact (h.modify (fun _ ↦ by rfl) child).modify (fun _ ↦ by rfl) parent

theorem relocate (h : t.AllSay Q) {child target : NodeId} {t' : NodeTree}
    (hok : t.relocate child target = .ok t') : t'.AllSay Q := by
  unfold NodeTree.relocate at hok
  cases hset : t.setRenderParent child target with
  | error e => exact absurd (hset ▸ hok) (by simp [Except.map])
  | ok t₁ =>
    rw [hset] at hok
    rw [← Except.ok.inj hok]
    exact (h.setRenderParent hset).modify (fun _ ↦ by rfl) child

theorem attach (h : t.AllSay Q) (parent child : NodeId) (layoutParent : Option NodeId) :
    (t.attach parent child layoutParent).2.AllSay Q := by
  have hchild := h.modify (f := addChild child) (fun _ ↦ by rfl) parent
  unfold NodeTree.attach
  split
  · exact h
  · exact h
  · dsimp only
    split
    · exact hchild.modify (fun _ ↦ by rfl) child
    · split
      · exact hchild
      · exact (hchild.modify (fun _ ↦ by rfl) _).modify (fun _ ↦ by rfl) child

/-! ### New nodes -/

section

variable (hnew : Q .nothing)

include hnew

theorem alloc (h : t.AllSay Q) (kind : NodeKind) (tag : String) :
    (t.alloc kind tag).2.AllSay Q := fun i n hn ↦ by
  have hpush : (t.nodes.push (.new t.size kind tag))[i]? = some n := hn
  rw [Array.getElem?_push] at hpush
  split at hpush
  · rw [← Option.some.inj hpush]
    exact hnew
  · exact h i n hpush

theorem allocGroup (h : t.AllSay Q) {parent id : NodeId} {bounds : Rect} {t' : NodeTree}
    (hok : t.allocGroup parent bounds = .ok (id, t')) : t'.AllSay Q := by
  unfold NodeTree.allocGroup at hok
  split at hok
  · exact absurd hok (by simp)
  · obtain ⟨-, rfl⟩ := Prod.mk.inj (Except.ok.inj hok)
    refine (h.alloc hnew .group "group").modify (fun n ↦ ?_) _
    rw [Node.said, Node.said, Style.get?_set_of_ne _ (by decide)]

end

/-! ### Depths in the output -/

theorem visitLevel (depth : Nat) (s : NodeTree × List NodeId × List NodeId) (h : s.1.AllSay Q)
    (id : NodeId) : (visitLevel depth s id).1.AllSay Q := by
  obtain ⟨t, seen, next⟩ := s
  unfold NodeTree.visitLevel
  dsimp only at h ⊢
  split
  · exact h
  · split
    · exact h
    · exact h.modify (fun _ ↦ by rfl) id

theorem visitLevels (h : t.AllSay Q) (seen : List NodeId) (depth fuel : Nat)
    (level : List NodeId) : (t.visitLevels seen depth fuel level).AllSay Q := by
  induction fuel generalizing t seen depth level with
  | zero => cases level <;> exact h
  | succ fuel ih =>
    cases level with
    | nil => exact h
    | cons id r =>
      have hlevel : ((id :: r).foldl (NodeTree.visitLevel depth) (t, seen, [])).1.AllSay Q :=
        List.foldlRecOn (motive := fun s : NodeTree × List NodeId × List NodeId ↦ s.1.AllSay Q)
          (id :: r) _ h fun s hs i _ ↦ visitLevel depth s hs i
      exact ih hlevel _ _ _

theorem computeRenderDepths (h : t.AllSay Q) : t.computeRenderDepths.AllSay Q :=
  h.visitLevels _ _ _ _

end AllSay

end NodeTree

/-! ### Classification -/

namespace Classify

variable {Q : Said → Prop} (hnew : Q .nothing) {t t' : NodeTree}

include hnew

/-- **Steps of classification** change no word. -/
theorem Steps.allSay {parent : NodeId} {member owner : NodeId → Prop}
    (hsteps : Steps parent member owner t t') (h : t.AllSay Q) : t'.AllSay Q := by
  induction hsteps with
  | refl => exact h
  | tail _ hstep ih =>
    cases hstep with
    | alloc made => exact ih.allocGroup hnew made
    | place position isMember isOwner placed =>
      exact (ih.setRenderParent placed).modify (fun _ ↦ by rfl) _
    | mark isMember inFlow => exact ih.modify (fun _ ↦ by rfl) _
    | hold container grid isOwner inFlow => exact ih.modify (fun _ ↦ by rfl) _

/-- **The run of one node.** -/
theorem allSay_run (c : LayoutConfig) {parent : NodeId} {outcome : ClassifyOutcome}
    (h : t.AllSay Q) (hok : run c t parent = .ok (outcome, t')) : t'.AllSay Q := by
  rcases steps_run hok with ⟨-, rfl⟩ | ⟨p, -, hsteps⟩
  · exact h
  · exact hsteps.allSay hnew (h.foldl (fun t n ht ↦ ht.modify (fun _ ↦ by rfl) n.id) _)

end Classify

/-! ### Nodes without a style -/

namespace NodeTree

/-- No node has a style. -/
def Unstyled (t : NodeTree) : Prop := ∀ i n, t.get? i = some n → n.styleRef = none

theorem unstyled_empty : empty.Unstyled := fun i n h ↦ absurd h (by simp [empty, get?])

/-- **A change that gives no style.** -/
theorem Unstyled.modify {t : NodeTree} (h : t.Unstyled) {f : Node → Node}
    (hf : ∀ n, (f n).styleRef = n.styleRef) (id : NodeId) : (t.modify id f).Unstyled :=
  AllSay.modify_of (Q := fun said ↦ said.styleRef = none) h id fun n hn ↦ (hf n).trans (h id n hn)

theorem Unstyled.computeRenderDepths {t : NodeTree} (h : t.Unstyled) :
    t.computeRenderDepths.Unstyled :=
  AllSay.computeRenderDepths (Q := fun said ↦ said.styleRef = none) h

end NodeTree

open NodeTree

/-- **One more document**: the nodes that come have no style. -/
theorem Ingest.unstyled_document {p : Provider} {warned warned' : List String} {element : Handle}
    {report : IngestReport} {t t' : NodeTree} (h : t.Unstyled)
    (hok : document p t warned element = .ok (report, t', warned')) : t'.Unstyled := fun i n hn ↦ by
  obtain ⟨met, hsourced⟩ := sourced_document hok
  rcases hsourced.node i _ (origin?_of_get? hn) with hold | ⟨-, x, -, hof⟩
  · obtain ⟨m, hm, hsame⟩ := Option.map_eq_some_iff.1 hold
    exact (congrArg Origin.styleRef hsame).symm.trans (h i m hm)
  · exact hof.styleRef

end ViewCompiler
