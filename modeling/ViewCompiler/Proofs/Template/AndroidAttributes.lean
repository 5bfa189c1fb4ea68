import Mathlib.Data.List.Nodup
import ViewCompiler.Android
import ViewCompiler.Proofs.Layout.Views
import ViewCompiler.Proofs.Resource.Referring
import ViewCompiler.Proofs.Text.Characters

/-!
# Attributes of views

Four facts about the attributes that the Android dialect gives a node.

* They depend on the bare tree only (`Android.attributes_bare`): what has been written of other
  nodes does not matter.
* No name comes twice (`Android.nodup_keys_attributes`), so that no value is stored for an
  attribute that is overwritten.
* A text that is written as it is looks like a reference only if it declares a view's name or refers
  to another view (`Android.Plain`).
* What is stored in words is the text of the node, an attribute of the source, its labels or its
  font family (`Android.Stores`).
-/

namespace ViewCompiler

/-- A dialect for which the bare tree is enough. -/
structure Dialect.OnBare (d : Dialect) : Prop where
  attributes : ∀ t id, d.attributes t.bare id = d.attributes t id
  elementTag : ∀ t n, d.elementTag t.bare n.bare = d.elementTag t n

namespace Android

variable {slug : String → String}

/-! ### The bare tree is enough -/

section Bare

variable (s : Screen) (t : NodeTree) (n : Node)

theorem parent_bare : n.bare.renderParent.bind t.bare.get? =
    (n.renderParent.bind t.get?).map Node.bare :=
  t.bind_get?_bare n.renderParent

theorem viewName?_bare : viewName? slug t.bare n.bare = viewName? slug t n := by
  have hlabelled : (t.bare.toList.any fun other ↦ other.companion == some n.bare.id) =
      t.toList.any fun other ↦ other.companion == some n.id := by
    rw [NodeTree.toList_bare, List.any_map]
    rfl
  rw [viewName?, viewName?, parent_bare, hlabelled]
  cases n.renderParent.bind t.get? <;> rfl

theorem view_bare (name : String) (target : Option NodeId) :
    view slug t.bare name target = view slug t name target := by
  rw [view, view, NodeTree.bind_get?_bare]
  cases target.bind t.get? with
  | none => rfl
  | some m => rw [Option.map_some, Option.bind_some, Option.bind_some, viewName?_bare]

theorem alignment_bare (parent : Node) :
    alignment slug t.bare n.bare parent.bare = alignment slug t n parent := by
  have hanchor : (fun id ↦ (t.bare.get? id).any fun m ↦ m.flags.contains .baselineAnchor) =
      fun id ↦ (t.get? id).any fun m ↦ m.flags.contains .baselineAnchor := funext fun id ↦ by
    rw [NodeTree.get?_bare]
    cases t.get? id <;> rfl
  rw [alignment, alignment, hanchor, NodeTree.renderOrder_bare, view_bare, view_bare]
  rfl

theorem placement_bare (parent : Node) :
    placement slug s t.bare n.bare parent.bare = placement slug s t n parent := by
  rw [placement, placement, alignment_bare]
  rfl

theorem width_bare (parent : Option Node) :
    width s n.bare (parent.map Node.bare) = width s n parent := by
  cases parent <;> rfl

theorem height_bare (parent : Option Node) :
    height s n.bare (parent.map Node.bare) = height s n parent := by
  cases parent <;> rfl

theorem placements_bare (parent : Option Node) :
    (parent.map Node.bare).toList.flatMap (placement slug s t.bare n.bare) =
      parent.toList.flatMap (placement slug s t n) := by
  cases parent with
  | none => rfl
  | some p => exact congrArg (· ++ []) (placement_bare s t n p)

theorem nodeAttributes_bare : nodeAttributes slug s t.bare n.bare = nodeAttributes slug s t n := by
  rw [nodeAttributes, nodeAttributes, parent_bare, viewName?_bare, view_bare,
    NodeTree.renderOrder_bare, width_bare, height_bare, placements_bare]
  -- nothing else looks at attributes or styles
  rfl

/-- **The attributes of a node can be told from the bare tree.** -/
theorem attributes_bare (id : NodeId) : attributes slug s t.bare id = attributes slug s t id := by
  rw [attributes, attributes, NodeTree.get?_bare]
  cases t.get? id with
  | none => rfl
  | some n => exact nodeAttributes_bare s t n

/-- And so can its element name. -/
theorem elementTag_bare :
    (dialect slug s).elementTag t.bare n.bare = (dialect slug s).elementTag t n := by
  have horder : t.bare.renderOrder n.bare.id = t.renderOrder n.id :=
    NodeTree.renderOrder_bare t n.id
  rw [Dialect.elementTag, Dialect.elementTag, horder]
  rfl

end Bare

theorem onBare_dialect (slug : String → String) (s : Screen) : (dialect slug s).OnBare :=
  ⟨attributes_bare s, elementTag_bare s⟩

/-! ### Names and texts -/

/-- How a view comes to refer to another one: a label to the one that it is for, and a member of a
container that aligns its members to another member. -/
inductive Refers (t : NodeTree) (n : Node) : String → NodeId → Prop
  | labelFor {target : NodeId} (companion : n.companion = some target) :
    Refers t n "android:labelFor" target
  | aligned {key : String} {p target : NodeId} {members : List NodeId}
      (side : key = "android:layout_toEndOf" ∨ key = "android:layout_alignBaseline")
      (parent : n.renderParent = some p) (order : t.renderOrder p = .ok members)
      (mem : target ∈ members) : Refers t n key target

/-- The characters of a text that looks like no reference: those of numbers and of words, and what
is between words. -/
def isUnmarked (c : Char) : Bool := Scalar.isNumeral c || c == '_' || c == '|'

/-- A number looks like no reference. -/
theorem unmarked_of_numeral {c : Char} (h : Scalar.isNumeral c = true) : isUnmarked c = true := by
  rw [isUnmarked, h, Bool.true_or, Bool.true_or]

/-- A text that is written as it is: one that looks like no reference, the declaration of the view's
name, or a reference to another view. -/
inductive Plain (slug : String → String) (t : NodeTree) (n : Node) : String → String → Prop
  | text {key text : String} (unmarked : Text.Within (fun c ↦ isUnmarked c = true) text) :
    Plain slug t n key text
  | declaration {name : String} (named : viewName? slug t n = some name) :
    Plain slug t n "android:id" ("@+id/" ++ name)
  | reference {key name : String} {target : NodeId} {m : Node} (found : t.get? target = some m)
      (named : viewName? slug t m = some name) (refers : Refers t n key target) :
    Plain slug t n key ("@id/" ++ name)

/-- What is stored of a node in words: its text or an attribute of the source, its labels, or its
font family. -/
def Stores (n : Node) : AttributeValue → Prop
  | .string text => n.text = some text ∨ ∃ key, n.source? key = some text
  | .array _ items => items = n.entries
  | .font family => n.style.fontFamily = some family
  | _ => True

/-- Attributes with names from a list, in its order, with the texts that there may be, and with
values that are in the node. -/
structure Fits (slug : String → String) (t : NodeTree) (n : Node) (names : List String)
    (l : List Attribute) : Prop where
  names : (l.map Prod.fst).Sublist names
  plain : ∀ key text, (key, .plain text) ∈ l → Plain slug t n key text
  stores : ∀ key v, (key, v) ∈ l → Stores n v

namespace Fits

variable {t : NodeTree} {n : Node} {names names' : List String} {l l' : List Attribute}

theorem nil : Fits slug t n names [] :=
  ⟨List.nil_sublist _, fun _ _ h ↦ absurd h List.not_mem_nil,
    fun _ _ h ↦ absurd h List.not_mem_nil⟩

theorem append (h : Fits slug t n names l) (h' : Fits slug t n names' l') :
    Fits slug t n (names ++ names') (l ++ l') where
  names := by
    rw [List.map_append]
    exact h.names.append h'.names
  plain key text hmem := (List.mem_append.1 hmem).elim (h.plain key text) (h'.plain key text)
  stores key v hmem := (List.mem_append.1 hmem).elim (h.stores key v) (h'.stores key v)

theorem mono (h : Fits slug t n names l) (hsub : names.Sublist names') : Fits slug t n names' l :=
  ⟨h.names.trans hsub, h.plain, h.stores⟩

theorem single {key text : String} (h : Plain slug t n key text) :
    Fits slug t n [key] [(key, .plain text)] where
  names := List.Sublist.refl _
  plain key' text' hmem := by
    obtain ⟨rfl, htext⟩ := Prod.mk.inj (List.mem_singleton.1 hmem)
    obtain rfl := AttributeValue.plain.inj htext
    exact h
  stores key' v hmem := by
    obtain ⟨-, rfl⟩ := Prod.mk.inj (List.mem_singleton.1 hmem)
    trivial

theorem text (key : String) {text : String} (h : Text.Within (fun c ↦ isUnmarked c = true) text) :
    Fits slug t n [key] [(key, .plain text)] :=
  single (.text h)

theorem number (key : String) {text : String}
    (h : Text.Within (fun c ↦ Scalar.isNumeral c = true) text) :
    Fits slug t n [key] [(key, .plain text)] :=
  .text key (h.mono fun _ ↦ unmarked_of_numeral)

theorem stored (key : String) {v : AttributeValue} {r : ValueStore.Request}
    (h : v.request? = some r) (hv : Stores n v) : Fits slug t n [key] [(key, v)] where
  names := List.Sublist.refl _
  plain key' text' hmem := by
    obtain ⟨-, rfl⟩ := Prod.mk.inj (List.mem_singleton.1 hmem)
    exact absurd h (by simp [AttributeValue.request?])
  stores key' v' hmem := by
    obtain ⟨-, rfl⟩ := Prod.mk.inj (List.mem_singleton.1 hmem)
    exact hv

theorem color (key : String) (c : Color) : Fits slug t n [key] [(key, .color c)] :=
  .stored key rfl trivial

theorem dimension (key : String) (x : Scalar) (unit : DimenUnit) :
    Fits slug t n [key] [(key, .dimension x unit)] :=
  .stored key rfl trivial

theorem drawable (key : String) (d : Drawable) : Fits slug t n [key] [(key, .drawable d)] :=
  .stored key rfl trivial

theorem option {α : Type} {o : Option α} {f : α → Attribute}
    (h : ∀ a, o = some a → Fits slug t n names [f a]) : Fits slug t n names (o.toList.map f) := by
  cases o with
  | none => exact nil
  | some a => exact h a rfl

theorem ite {p : Prop} [Decidable p] (h : Fits slug t n names l) (h' : Fits slug t n names l') :
    Fits slug t n names (if p then l else l') := by
  split
  · exact h
  · exact h'

end Fits

section Pieces

variable {s : Screen} {t : NodeTree} {n : Node}

theorem fits_length (name : String) (px : Scalar) :
    Fits slug t n ["android:" ++ name] [length s name px] :=
  .dimension _ _ _

theorem fits_width (parent : Option Node) :
    Fits slug t n ["android:layout_weight", "android:layout_width"] (width s n parent) := by
  have hlast : ["android:layout_width"].Sublist ["android:layout_weight", "android:layout_width"] :=
    List.sublist_cons_self _ _
  refine .ite (.mono (.text "android:layout_width" (by decide)) hlast) (.ite ?_ (.ite ?_ ?_))
  · exact .append (.option fun p _ ↦ .number "android:layout_weight" (Scalar.within_text p))
      (.text "android:layout_width" (by decide))
  · exact .mono (fits_length "layout_width" _) hlast
  · exact .mono (.text "android:layout_width" (by decide)) hlast

theorem fits_height (parent : Option Node) :
    Fits slug t n ["android:layout_height"] (height s n parent) :=
  .ite (.text "android:layout_height" (by decide))
    (.ite (fits_length "layout_height" _) (.text "android:layout_height" (by decide)))

theorem fits_offsets (bounds origin : Rect) :
    Fits slug t n ["android:layout_marginStart", "android:layout_marginTop"]
      (offsets s bounds origin) :=
  .append (.ite (.dimension "android:layout_marginStart" _ _) .nil)
    (.ite (.dimension "android:layout_marginTop" _ _) .nil)

theorem fits_view (name : String) {target : Option NodeId}
    (h : ∀ i, target = some i → Refers t n ("android:" ++ name) i) :
    Fits slug t n ["android:" ++ name] (view slug t name target) := by
  rw [view]
  split
  · rename_i view hview
    obtain ⟨m, hm, hnamed⟩ := Option.bind_eq_some_iff.1 hview
    obtain ⟨i, rfl, hi⟩ := Option.bind_eq_some_iff.1 hm
    exact .single (.reference hi hnamed (h i rfl))
  · exact .nil

theorem fits_alignment {p : Node} (hparent : n.renderParent = some p.id) :
    Fits slug t n ["android:layout_toEndOf", "android:layout_alignBaseline"]
      (alignment slug t n p) := by
  have hmember : ∀ key i, key = "android:layout_toEndOf" ∨ key = "android:layout_alignBaseline" →
      i ∈ (t.renderOrder p.id).toOption.getD [] → Refers t n key i := by
    intro key i hkey hi
    cases horder : t.renderOrder p.id with
    | error e =>
      rw [horder] at hi
      exact absurd hi List.not_mem_nil
    | ok members =>
      rw [horder] at hi
      exact .aligned hkey hparent horder hi
  refine .append
    (fits_view "layout_toEndOf" fun i hi ↦ hmember "android:layout_toEndOf" i (.inl rfl) ?_)
    (fits_view "layout_alignBaseline" fun i hi ↦
      hmember "android:layout_alignBaseline" i (.inr rfl) ?_)
  · obtain ⟨k, -, hk⟩ := Option.bind_eq_some_iff.1 hi
    split at hk
    · exact absurd hk (by simp)
    · exact List.mem_of_getElem? hk
  · exact List.mem_of_find?_eq_some (Option.filter_eq_some_iff.1 hi).1

/-- The names of the attributes with which a container places a member. -/
def placementNames : List String :=
  ["android:layout_gravity", "android:layout_toEndOf", "android:layout_alignBaseline",
    "android:layout_marginStart", "android:layout_marginTop"]

theorem fits_placement {p : Node} (hparent : n.renderParent = some p.id) :
    Fits slug t n placementNames (placement slug s t n p) := by
  have hgravity : ∀ {text}, Text.Within (fun c ↦ isUnmarked c = true) text →
      Fits slug t n placementNames [plain "layout_gravity" text] := fun h ↦
    .mono (.text "android:layout_gravity" h) (by decide)
  have hoffsets : ∀ origin, Fits slug t n placementNames (offsets s n.bounds origin) := fun origin ↦
    .mono (fits_offsets n.bounds origin) (by decide)
  rw [placement]
  cases p.container with
  | linearVertical => exact .ite (hgravity (by decide)) (.ite (hgravity (by decide)) .nil)
  | relative => exact .mono (fits_alignment hparent) (by decide)
  | frame => exact hoffsets _
  | leaf => exact hoffsets _
  | linearHorizontal => exact .nil
  | grid => exact .nil

theorem fits_arrangement :
    Fits slug t n ["android:orientation", "android:columnCount"] (arrangement n) := by
  rw [arrangement]
  cases n.container with
  | linearHorizontal => exact .mono (.text "android:orientation" (by decide)) (by decide)
  | linearVertical => exact .mono (.text "android:orientation" (by decide)) (by decide)
  | grid =>
    exact .mono (.option fun g _ ↦
      .number "android:columnCount" fun _ ↦ Scalar.numeral_of_mem_toString_nat) (by decide)
  | relative => exact .nil
  | frame => exact .nil
  | leaf => exact .nil

theorem fits_textStyle (style : Style) : Fits slug t n ["android:textStyle"] (textStyle style) := by
  rw [textStyle]
  split
  · exact .text "android:textStyle" (by decide)
  · exact .text "android:textStyle" (by decide)
  · exact .text "android:textStyle" (by decide)
  · exact .nil

theorem fits_gravity (style : Style) : Fits slug t n ["android:gravity"] (gravity style) := by
  rw [gravity]
  split
  · exact .text "android:gravity" (by decide)
  · exact .text "android:gravity" (by decide)
  · exact .text "android:gravity" (by decide)
  · exact .nil

/-- The names of the attributes with which text is set. -/
def typographyNames : List String :=
  ["android:textColor"] ++ ["android:textSize"] ++ ["android:fontFamily"] ++
    ["android:textStyle"] ++ ["android:gravity"]

theorem fits_typography : Fits slug t n typographyNames (typography s n.style) :=
  .append (.append (.append (.append
    (.option fun _ _ ↦ .color "android:textColor" _)
    (.option fun _ _ ↦ .dimension "android:textSize" _ _))
    (.option fun _ hfamily ↦ .stored "android:fontFamily" rfl hfamily))
    (fits_textStyle n.style)) (fits_gravity n.style)

/-- An attribute of the source that is not empty. -/
theorem stores_filled {key text : String} (h : filled? n key = some text) :
    Stores n (.string text) :=
  .inr ⟨key, (Option.filter_eq_some_iff.1 h).1⟩

theorem fits_image :
    Fits slug t n ["android:src", "android:contentDescription"] (image n) := by
  rw [image]
  split
  · exact .nil
  · exact .append (.drawable "android:src" _)
      (.option fun _ halt ↦ .stored "android:contentDescription" rfl (stores_filled halt))

theorem fits_entries : Fits slug t n ["android:entries"] (entries n) :=
  .ite .nil (.stored "android:entries" rfl rfl)

/-- The names of the attributes with which a node shows something. -/
def contentNames : List String :=
  ["android:text"] ++ ["android:hint"] ++ typographyNames ++
    ["android:src", "android:contentDescription"] ++ ["android:entries"]

/-- The text of a node, or what has been filled in. -/
theorem stores_shown {text : String} (h : (n.text <|> filled? n "value") = some text) :
    Stores n (.string text) := by
  cases htext : n.text with
  | none => exact stores_filled (by rwa [htext] at h)
  | some own => exact .inl (by rwa [htext] at h ⊢)

theorem fits_content : Fits slug t n contentNames (content s n) :=
  .append (.append (.append (.append
    (.option fun _ htext ↦ .stored "android:text" rfl (stores_shown htext))
    (.option fun _ hhint ↦ .stored "android:hint" rfl (stores_filled hhint)))
    (.ite fits_typography .nil)) fits_image) fits_entries

theorem fits_background : Fits slug t n ["android:background"] (background s n) := by
  rw [background]
  split
  · exact .drawable "android:background" _
  · exact .option fun _ _ ↦ .color "android:background" _

/-- The names of the attributes for the space inside a node's border. -/
def paddingNames : List String :=
  ["android:padding", "android:paddingTop", "android:paddingEnd", "android:paddingBottom",
    "android:paddingStart"]

theorem fits_padding : Fits slug t n paddingNames (padding s n) := by
  have hside : ∀ name px, Fits slug t n ["android:" ++ name]
      (if px > 0 then [length s name px] else []) := fun name px ↦ .ite (fits_length name px) .nil
  refine .ite .nil (.ite (.mono (fits_length "padding" _) (by decide)) ?_)
  exact .mono (.append (.append (.append (hside "paddingTop" _) (hside "paddingEnd" _))
    (hside "paddingBottom" _)) (hside "paddingStart" _)) (by decide)

end Pieces

/-- The names of the attributes of a node, in the order in which their values are stored. -/
def names : List String :=
  ["android:id"] ++ ["android:layout_weight", "android:layout_width"] ++
    ["android:layout_height"] ++ placementNames ++ ["android:orientation", "android:columnCount"] ++
    contentNames ++ (["android:background"] ++ paddingNames) ++ ["android:labelFor"] ++
    ["android:visibility"] ++ ["android:alpha"]

/-- The name of a view, and all that is said besides. -/
theorem exists_rest (slug : String → String) (s : Screen) (t : NodeTree) (n : Node) : ∃ rest,
    nodeAttributes slug s t n =
      (viewName? slug t n).toList.map (fun name ↦ plain "id" ("@+id/" ++ name)) ++ rest ∧
      Fits slug t n names.tail rest := by
  have hplacement : Fits slug t n placementNames
      ((n.renderParent.bind t.get?).toList.flatMap (placement slug s t n)) := by
    cases hp : n.renderParent.bind t.get? with
    | none => exact .nil
    | some p =>
      obtain ⟨i, hi, hget⟩ := Option.bind_eq_some_iff.1 hp
      rw [Option.toList_some, List.flatMap_singleton]
      exact fits_placement (NodeTree.id_of_get? hget ▸ hi)
  rw [nodeAttributes]
  simp only [List.append_assoc]
  refine ⟨_, rfl, .mono (.append (fits_width _) (.append (fits_height _) (.append hplacement
    (.append fits_arrangement (.append (.ite fits_content .nil) (.append
    (.ite (.append fits_background fits_padding) .nil) (.append
    (fits_view "labelFor" fun i hi ↦ .labelFor hi) (.append
    (.ite .nil (.text "android:visibility" (by decide)))
    (.ite (.number "android:alpha" (Scalar.within_text n.style.opacity)) .nil))))))))) ?_⟩
  exact List.Sublist.refl _

/-- **All attributes of a node** have names of their own and texts that there may be. -/
theorem fits_nodeAttributes (slug : String → String) (s : Screen) (t : NodeTree) (n : Node) :
    Fits slug t n names (nodeAttributes slug s t n) := by
  obtain ⟨rest, heq, hrest⟩ := exists_rest slug s t n
  have hhead : Fits slug t n ["android:id"]
      ((viewName? slug t n).toList.map fun name ↦ plain "id" ("@+id/" ++ name)) :=
    .option fun name hname ↦ .single (.declaration hname)
  rw [heq]
  exact hhead.append hrest

/-- **A view declares its name**, and no other. -/
theorem id_mem_iff {s : Screen} {t : NodeTree} {n : Node} {v : AttributeValue} :
    ("android:id", v) ∈ nodeAttributes slug s t n ↔
      ∃ name, viewName? slug t n = some name ∧ v = .plain ("@+id/" ++ name) := by
  obtain ⟨rest, heq, hrest⟩ := exists_rest slug s t n
  have hnot : ("android:id", v) ∉ rest := fun hmem ↦
    (by decide : "android:id" ∉ names.tail) (hrest.names.subset (List.mem_map_of_mem hmem))
  rw [heq, List.mem_append, or_iff_left hnot, List.mem_map]
  constructor
  · rintro ⟨name, hname, hv⟩
    exact ⟨name, Option.mem_toList.1 hname, ((Prod.mk.inj hv).2).symm⟩
  · rintro ⟨name, hname, rfl⟩
    exact ⟨name, Option.mem_toList.2 hname, rfl⟩

theorem mem_names_of_mem {s : Screen} {t : NodeTree} {id : NodeId} {a : Attribute}
    (h : a ∈ attributes slug s t id) : a.1 ∈ names := by
  rw [attributes] at h
  split at h
  · exact (fits_nodeAttributes slug s t _).names.subset (List.mem_map_of_mem h)
  · exact absurd h List.not_mem_nil

/-- **No name comes twice.** -/
theorem nodup_keys_attributes (slug : String → String) (s : Screen) (t : NodeTree)
    (id : NodeId) : ((attributes slug s t id).map Prod.fst).Nodup := by
  rw [attributes]
  split
  · exact (by decide : names.Nodup).sublist (fits_nodeAttributes slug s t _).names
  · exact .nil

/-! ### References -/

/-- A reference has a mark. -/
theorem mem_reference {word name : String} : '@' ∈ (ValueStore.reference word name).toList := by
  simp [ValueStore.reference]

/-- No reference is written at the root of a document only. -/
theorem reference_not_mem_root (s : Screen) (first : Bool) (key word name : String) :
    (key, ValueStore.reference word name) ∉
      if first then (dialect slug s).rootAttributes else [] := fun h ↦ by
  split at h
  · have htext := (Prod.mk.inj (List.mem_singleton.1 h)).2
    exact absurd (htext ▸ mem_reference) (by decide)
  · exact absurd h List.not_mem_nil

/-- **A reference in an attribute** is to a stored value, or declares a view's name, or refers to
another view. -/
theorem reference_cases {s : Screen} {t : NodeTree} {id : NodeId} {key : String}
    {v : AttributeValue} (hv : (key, v) ∈ attributes slug s t id) {store : ValueStore}
    {word name : String} (hword : '/' ∉ word.toList)
    (h : store.Says v (ValueStore.reference word name)) :
    (∃ r, v.request? = some r ∧ r.kind.resource.word = word ∧
      (store.table r.kind).name? r.key = some name) ∨
    word = "+id" ∨
    word = "id" ∧ ∃ n target m, t.get? id = some n ∧ t.get? target = some m ∧
      viewName? slug t m = some name ∧ Refers t n key target := by
  generalize htext : ValueStore.reference word name = text at h
  cases h with
  | stored request named =>
    obtain ⟨rfl, rfl⟩ :=
      ValueStore.reference_inj hword (ValueStore.ResourceKind.not_mem_word _) htext
    exact .inl ⟨_, request, rfl, named⟩
  | plain =>
    rw [attributes] at hv
    split at hv
    · rename_i n hn
      cases (fits_nodeAttributes slug s t n).plain key text hv with
      | text unmarked => exact absurd (unmarked '@' (htext ▸ mem_reference)) (by decide)
      | @declaration name' =>
        have hdeclared : ValueStore.reference word name = ValueStore.reference "+id" name' := htext
        exact .inr (.inl (ValueStore.reference_inj hword (by decide) hdeclared).1)
      | @reference _ name' _ _ found named refers =>
        have href : ValueStore.reference word name = ValueStore.reference "id" name' := htext
        obtain ⟨rfl, rfl⟩ := ValueStore.reference_inj hword (by decide) href
        exact .inr (.inr ⟨rfl, n, _, _, hn, found, named, refers⟩)
    · exact absurd hv List.not_mem_nil

end Android

end ViewCompiler
