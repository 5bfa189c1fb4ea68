import ViewCompiler.Proofs.Layout.Anchors
import ViewCompiler.Proofs.Resource.FreeName
import ViewCompiler.Proofs.Template.AndroidAttributes
import ViewCompiler.Proofs.Template.Numbers

/-!
# Names of views

A view has its name from the id of its element, if that leaves any characters that a name can have
(`Android.idName?`), or else from its number, if other views refer to it. The name that an id makes
is found from this id alone, so that the names of different ids may be the same, and an id may make
the name that another view has from its number. Two names that are made from numbers differ
(`Android.numberName_injective`).
-/

namespace ViewCompiler

open NodeTree

namespace Android

variable {slug : String → String}

/-- The name that a number makes. -/
def numberName (i : NodeId) : String := Name.suffixed "view" i

theorem numberName_eq (i : NodeId) : "view_" ++ toString i = numberName i :=
  congrArg (· ++ toString i) (by decide : "view_" = "view" ++ "_")

theorem numberName_injective : Function.Injective numberName := Name.suffixed_injective "view"

/-- The name of the view of a node. -/
def nameAt? (slug : String → String) (t : NodeTree) (i : NodeId) : Option String :=
  (t.get? i).bind (viewName? slug t)

section

variable {t t' : NodeTree} {i : NodeId} {n : Node}

theorem nameAt?_of_get? (h : t.get? i = some n) : nameAt? slug t i = viewName? slug t n := by
  rw [nameAt?, h, Option.bind_some]

/-- Names can be told from the bare tree. -/
theorem nameAt?_of_bare (h : t'.bare = t.bare) (i : NodeId) :
    nameAt? slug t' i = nameAt? slug t i := by
  have hbare : ∀ t : NodeTree, nameAt? slug t.bare i = nameAt? slug t i := fun t ↦ by
    rw [nameAt?, get?_bare, nameAt?]
    cases t.get? i with
    | none => rw [Option.map_none, Option.bind_none, Option.bind_none]
    | some n => rw [Option.map_some, Option.bind_some, Option.bind_some, viewName?_bare]
  rw [← hbare, h, hbare]

/-- **The name of a view** is that of its id, or else that of its number, if it is needed. -/
theorem viewName?_eq_or (t : NodeTree) (n : Node) : viewName? slug t n =
    ((n.source? "id").bind (idName? slug)).or
      (if isAligned t n || isLabelled t n then some (numberName n.id) else none) := by
  rw [viewName?_eq, numberName_eq]

/-- A view has its name from its number: its id leaves no name, and others refer to it. -/
structure Numbered (slug : String → String) (t : NodeTree) (i : NodeId) : Prop where
  unnamed : ∀ id, (t.originOf i).attributes.get? "id" = some id → idName? slug id = none
  needed : ∃ n, t.get? i = some n ∧ (isAligned t n || isLabelled t n) = true

/-- Where a view has its name from. -/
inductive Named (slug : String → String) (t : NodeTree) (i : NodeId) : String → Prop
  | ofId {id name : String} (source : (t.originOf i).attributes.get? "id" = some id)
    (makes : idName? slug id = some name) : Named slug t i name
  | ofNumber (numbered : Numbered slug t i) : Named slug t i (numberName i)

theorem source?_eq (hn : t.get? i = some n) :
    n.source? "id" = (t.originOf i).attributes.get? "id" := by
  rw [originOf_of_get? hn]
  rfl

/-- What has a name is there. -/
theorem Named.exists_get? {name : String} (h : Named slug t i name) : ∃ n, t.get? i = some n := by
  cases h with
  | ofId source =>
    refine Option.ne_none_iff_exists'.1 fun hnone ↦ ?_
    rw [originOf, origin?, hnone] at source
    exact absurd source (by simp [Origin.blank])
  | ofNumber numbered =>
    obtain ⟨n, hn, -⟩ := numbered.needed
    exact ⟨n, hn⟩

theorem Named.nameAt?_eq {name : String} (h : Named slug t i name) :
    nameAt? slug t i = some name := by
  obtain ⟨n, hn⟩ := h.exists_get?
  rw [nameAt?_of_get? hn, viewName?_eq_or, source?_eq hn, id_of_get? hn]
  cases h with
  | ofId source makes => rw [source, Option.bind_some, makes, Option.some_or]
  | ofNumber numbered =>
    obtain ⟨n', hn', hneeded⟩ := numbered.needed
    obtain rfl := Option.some.inj (hn.symm.trans hn')
    rw [Option.bind_eq_none_iff.2 numbered.unnamed, Option.none_or, if_pos hneeded]

theorem named_of_nameAt? {name : String} (h : nameAt? slug t i = some name) :
    Named slug t i name := by
  obtain ⟨n, hn, h⟩ := Option.bind_eq_some_iff.1 h
  rw [viewName?_eq_or, source?_eq hn, id_of_get? hn] at h
  cases hid : ((t.originOf i).attributes.get? "id").bind (idName? slug) with
  | some made =>
    obtain ⟨id, hsource, hmakes⟩ := Option.bind_eq_some_iff.1 hid
    rw [hid, Option.some_or] at h
    obtain rfl := Option.some.inj h
    exact .ofId hsource hmakes
  | none =>
    rw [hid, Option.none_or] at h
    split at h
    · rename_i hneeded
      obtain rfl := Option.some.inj h
      exact .ofNumber ⟨Option.bind_eq_none_iff.1 hid, n, hn, hneeded⟩
    · exact absurd h (by simp)

/-- **Every name is that of an id or of a number.** -/
theorem nameAt?_eq_some_iff {name : String} : nameAt? slug t i = some name ↔ Named slug t i name :=
  ⟨named_of_nameAt?, Named.nameAt?_eq⟩

end

end Android

end ViewCompiler
