import ViewCompiler.Convert.Images
import ViewCompiler.Proofs.SortedMap

/-!
# What images do to a node

`Context.loadImages` goes through the images, and through the nodes that show each of them.
`Context.get?_loadImages` says what has become of one node in the end. It depends on this node and
on the loader, and not on what other nodes show.
-/

namespace ViewCompiler

open NodeTree

/-- The size that a loader gives a source; none that cannot be loaded has an area. -/
def ImageLoader.size (loader : ImageLoader) (source : String) : Size :=
  (loader source).toOption.getD .zero

namespace Node

/-- The image that a node shows, with the number of the node. -/
def shown? (n : Node) : Option (String × NodeId) :=
  if n.excluded then none else n.imageSource.map fun source ↦ (source, n.id)

/-- A node with the size of the image that it shows. -/
def sized (loader : ImageLoader) (n : Node) : Node :=
  match n.shown? with
  | some (source, _) => n.withImageSize (loader.size source)
  | none => n

/-- The size of an image is taken over once. -/
theorem withImageSize_withImageSize (n : Node) (size : Size) :
    (n.withImageSize size).withImageSize size = n.withImageSize size := by
  unfold withImageSize
  cases h : (n.bounds.width ≤ 0 || n.bounds.height ≤ 0) with
  | true => simp
  | false => simp [h]

end Node

namespace NodeTree

/-- The images of a tree are those that its nodes show. -/
theorem imageSources_eq (t : NodeTree) : t.imageSources = (t.toList.filterMap Node.shown?).foldl
    (fun m e ↦ m.insert e.1 (m.getD e.1 [] ++ [e.2])) .empty := by
  rw [imageSources, List.foldl_filter, List.foldl_filterMap]
  refine congrFun (congrFun (congrArg List.foldl (funext fun m ↦ funext fun n ↦ ?_)) _) _
  rw [Node.shown?]
  cases n.excluded <;> cases n.imageSource <;> rfl

theorem snd_of_shown {n : Node} {e : String × NodeId} (h : n.shown? = some e) : e.2 = n.id := by
  rw [Node.shown?] at h
  split at h
  · exact absurd h (by simp)
  · obtain ⟨source, -, rfl⟩ := Option.map_eq_some_iff.1 h
    rfl

theorem mem_filterMap_shown {t : NodeTree} {source : String} {i : NodeId} :
    (source, i) ∈ t.toList.filterMap Node.shown? ↔
      (t.get? i).bind Node.shown? = some (source, i) := by
  rw [List.mem_filterMap]
  constructor
  · rintro ⟨n, hn, hshown⟩
    obtain ⟨j, hj⟩ := List.mem_iff_getElem?.1 hn
    rw [toList, Array.getElem?_toList] at hj
    have hid : i = j := (snd_of_shown hshown).trans (t.numbered j n hj)
    rw [hid, show t.get? j = some n from hj, ← hid]
    exact hshown
  · intro h
    obtain ⟨n, hn, hshown⟩ := Option.bind_eq_some_iff.1 h
    refine ⟨n, ?_, hshown⟩
    rw [toList, Array.mem_toList_iff]
    exact Array.mem_of_getElem? hn

/-- **Where a node is listed**: under the image that it shows. -/
theorem mem_imageSources {t : NodeTree} {source : String} {ids : List NodeId}
    (h : (source, ids) ∈ t.imageSources.entries) {i : NodeId} :
    i ∈ ids ↔ (t.get? i).bind Node.shown? = some (source, i) := by
  rw [imageSources_eq] at h
  rw [SortedMap.eq_of_mem_foldl_group Prod.fst Prod.snd h, ← mem_filterMap_shown, List.mem_map]
  constructor
  · rintro ⟨e, he, rfl⟩
    obtain ⟨he, hsource⟩ := List.mem_filter.1 he
    rwa [← show e.1 = source by simpa using hsource]
  · exact fun he ↦ ⟨(source, i), List.mem_filter.2 ⟨he, by simp⟩, rfl⟩

theorem exists_mem_imageSources {t : NodeTree} {source : String} {i : NodeId}
    (h : (t.get? i).bind Node.shown? = some (source, i)) :
    ∃ ids, (source, ids) ∈ t.imageSources.entries ∧ i ∈ ids := by
  rw [imageSources_eq]
  exact SortedMap.exists_mem_foldl_group Prod.fst Prod.snd (mem_filterMap_shown.2 h)

/-- A change that is made once is made at every node of a list. -/
theorem get?_foldl_modify {f : Node → Node} (honce : ∀ n, f (f n) = f n)
    (hid : ∀ n, (f n).id = n.id) (ids : List NodeId) (t : NodeTree) (i : NodeId) :
    (ids.foldl (fun t id ↦ t.modify id f) t).get? i =
      if i ∈ ids then (t.get? i).map f else t.get? i := by
  have hkeeps : ∀ n : Node, { f n with id := n.id } = f n := fun n ↦ by rw [← hid n]
  induction ids generalizing t with
  | nil => simp
  | cons id r ih =>
    rw [List.foldl_cons, ih, get?_modify]
    simp only [hkeeps]
    by_cases h : id = i
    · subst h
      have htwice : f ∘ f = f := funext honce
      simp [htwice]
    · simp [h, Ne.symm h]

end NodeTree

namespace Context

variable (loader : ImageLoader)

/-- The report of an image that cannot be loaded, at the first of the nodes that show it. -/
def imageReport? (c : Context) (image : String × List NodeId) : Option Diagnostic :=
  match loader image.1 with
  | .ok _ => none
  | .error e =>
    some ⟨.warning, .imageLoad,
      image.2.head?.bind fun id ↦ (c.tree.documentOf id).toOption.bind c.nameOfRoot?,
      image.2.head?, e.message⟩

/-- **What one image changes**: the nodes that are listed under it, and the reports. -/
theorem loadImage_eq (c : Context) (image : String × List NodeId) :
    c.loadImage loader image =
      { c with
        tree := image.2.foldl (fun t id ↦ t.modify id fun n ↦ n.withImageSize (loader.size image.1))
          c.tree
        diagnostics := c.diagnostics ++ (c.imageReport? loader image).toList } := by
  have hnodes : ∀ (size : Size) (ids : List NodeId) (c : Context),
      ids.foldl (fun c id ↦ c.modifyNode id fun n ↦ n.withImageSize size) c =
        { c with tree := ids.foldl (fun t id ↦ t.modify id fun n ↦ n.withImageSize size) c.tree } := by
    intro size ids
    induction ids with
    | nil => exact fun _ ↦ rfl
    | cons id r ih => exact fun c ↦ ih _
  rw [loadImage, imageReport?, ImageLoader.size]
  dsimp only
  cases loader image.1 with
  | ok size => rw [hnodes, Option.toList_none, List.append_nil]; rfl
  | error e => rw [hnodes]; rfl

/-- **One image** is given to the nodes that are listed under it. -/
theorem get?_loadImage (c : Context) (image : String × List NodeId) (i : NodeId) :
    (c.loadImage loader image).tree.get? i =
      if i ∈ image.2 then (c.tree.get? i).map fun n ↦ n.withImageSize (loader.size image.1)
      else c.tree.get? i := by
  rw [loadImage_eq]
  exact get?_foldl_modify (f := fun n ↦ n.withImageSize (loader.size image.1))
    (fun n ↦ n.withImageSize_withImageSize _) (fun _ ↦ rfl) _ _ _

/-- Images one after another, of which one at most is shown by a node. -/
theorem get?_foldl_loadImage {i : NodeId} (source : String)
    {images : List (String × List NodeId)} (hone : ∀ e ∈ images, i ∈ e.2 → e.1 = source)
    (c : Context) : (images.foldl (loadImage loader) c).tree.get? i =
      if ∃ e ∈ images, i ∈ e.2 then
        (c.tree.get? i).map fun n ↦ n.withImageSize (loader.size source)
      else c.tree.get? i := by
  induction images generalizing c with
  | nil => simp
  | cons e r ih =>
    rw [List.foldl_cons, ih fun e he ↦ hone e (List.mem_cons_of_mem _ he), get?_loadImage]
    have hsome : (∃ e' ∈ e :: r, i ∈ e'.2) ↔ i ∈ e.2 ∨ ∃ e' ∈ r, i ∈ e'.2 := by simp
    by_cases he : i ∈ e.2
    · have htwice : (fun n : Node ↦ n.withImageSize (loader.size source)) ∘
          (fun n : Node ↦ n.withImageSize (loader.size source)) =
            fun n : Node ↦ n.withImageSize (loader.size source) :=
        funext fun n : Node ↦ n.withImageSize_withImageSize _
      simp only [hsome, he, true_or, if_true, hone e List.mem_cons_self he, Option.map_map, htwice,
        ite_self]
    · simp only [hsome, he, false_or, if_false]

/-- **After all images** a node has the size of the one that it shows. -/
theorem get?_loadImages (c : Context) (i : NodeId) :
    (c.loadImages loader).tree.get? i = (c.tree.get? i).map (Node.sized loader) := by
  rw [loadImages]
  cases hshown : (c.tree.get? i).bind Node.shown? with
  | none =>
    have hnone : ¬∃ e ∈ c.tree.imageSources.entries, i ∈ e.2 := by
      rintro ⟨e, he, hi⟩
      exact absurd (hshown.symm.trans ((mem_imageSources he).1 hi)) (by simp)
    rw [get?_foldl_loadImage loader "" (fun e he hi ↦ absurd ⟨e, he, hi⟩ hnone),
      if_neg hnone]
    cases hn : c.tree.get? i with
    | none => rfl
    | some n =>
      rw [hn, Option.bind_some] at hshown
      rw [Option.map_some, Node.sized, hshown]
  | some e =>
    obtain ⟨n, hn, hshows⟩ := Option.bind_eq_some_iff.1 hshown
    obtain ⟨source, j⟩ := e
    obtain rfl : j = i := (snd_of_shown hshows).trans (id_of_get? hn)
    obtain ⟨ids, hids, hmem⟩ := exists_mem_imageSources hshown
    rw [get?_foldl_loadImage loader source (fun e he hi ↦ ?_), if_pos ⟨_, hids, hmem⟩,
      hn, Option.map_some, Option.map_some, Node.sized, hshows]
    have hsame := (mem_imageSources (show (e.1, e.2) ∈ _ from he)).1 hi
    exact (Prod.mk.inj (Option.some.inj (hsame.symm.trans hshown))).1

end Context

end ViewCompiler
