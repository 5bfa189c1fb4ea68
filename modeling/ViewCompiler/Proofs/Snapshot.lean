import Mathlib.Data.List.Lex
import ViewCompiler.Snapshot

/-!
# What the provider of a snapshot gives back

A snapshot holds trees of elements, and its provider holds a flat list of entries that refer to each
other by number. Nothing is lost on the way: whoever asks the provider, from the root of a document
on, what was measured of an element and which elements are inside it, gets the trees back
(`Provider.rebuild?`). What is in an element without bounds is all that cannot be seen
(`SnapshotElement.observed`).

An element is reached over a **path**: the place of its document, then the place of a child, then of
one of its children, and so on. Paths are ordered as lists of numbers, a path before its extensions,
which is the order in which a walk depth first meets what they lead to. `PathOrder` says that the
paths lead to the numbers in a range, to each of them, and in this order. So there is one path to
each number. The induction is on the tree, with the part of the entries that belongs to it as the
range: a tree has its own number first and then the ranges of what is inside it, side by side.

The main result is `Snapshot.provider_gives_back`. That nothing is measured but what the snapshot
has of its elements is said apart, for those who ask for texts only (`Snapshot.exists_box`).
-/

namespace ViewCompiler

/-! ### Reading a provider -/

/-- All that a measure tells of an element. -/
def SnapshotBox.ofMeasure (m : BoxMeasure) : SnapshotBox :=
  ⟨m.tag, some m.bounds, m.margin, m.border, m.padding, m.style, m.attributes, m.text,
    m.imageSource⟩

/-- What can be seen of an element: everything, or nothing without bounds. -/
def SnapshotBox.observed (b : SnapshotBox) : SnapshotBox := if b.bounds.isSome then b else .empty

/-- What can be seen of an element and of those inside it. -/
def SnapshotElement.observed : SnapshotElement → SnapshotElement
  | node box children => node box.observed (children.map observed)

namespace Provider

/-- What a provider tells of an element itself. An element that it could not measure is one without
bounds; any other error tells nothing. -/
def box? (p : Provider) (h : Handle) : Option SnapshotBox :=
  match p.measure h with
  | .ok m => some (.ofMeasure m)
  | .error (.unmeasurable h' _) => if h' = h then some .empty else none
  | .error _ => none

/-- The tree of elements from an element on, if it is no deeper than `fuel` elements. -/
def rebuild? (p : Provider) : Nat → Handle → Option SnapshotElement
  | 0, _ => none
  | fuel + 1, h => do
    let box ← p.box? h
    let children ← (p.children h).mapM (p.rebuild? fuel)
    return .node box children

/-- The element that places of children lead to, from an element on. -/
def along? (p : Provider) (h : Handle) : List Nat → Option Handle
  | [] => some h
  | k :: r => (p.children h)[k]?.bind fun c ↦ p.along? c r

/-- The element at a path: the place of a document, then places of children. -/
def atPath? (p : Provider) : List Nat → Option Handle
  | [] => none
  | k :: r => (p.documents[k]?.bind DocumentRoot.root).bind fun h ↦ p.along? h r

end Provider

/-! ### Numbers in the order of paths -/

namespace Paths

/-- Goes on from the item at a place with the rest of a path. -/
def among (finds : List (List Nat → Option Nat)) : List Nat → Option Nat
  | [] => none
  | k :: r => finds[k]?.bind fun find ↦ find r

/-- Stays at a number, or goes on from it. -/
def rooted (a : Nat) (find : List Nat → Option Nat) : List Nat → Option Nat
  | [] => some a
  | k :: r => find (k :: r)

end Paths

open Paths

/-- **The paths lead to the numbers from `a` up to `b`**, to every one of them and in their order. -/
structure PathOrder (find : List Nat → Option Nat) (a b : Nat) : Prop where
  le : a ≤ b
  bounds : ∀ {path x}, find path = some x → a ≤ x ∧ x < b
  onto : ∀ {x}, a ≤ x → x < b → ∃ path, find path = some x
  mono : ∀ {path path' x x'}, find path = some x → find path' = some x' → path < path' → x < x'

namespace PathOrder

variable {find : List Nat → Option Nat} {finds : List (List Nat → Option Nat)} {a b c : Nat}

/-- No path leads anywhere. -/
theorem nowhere (a : Nat) : PathOrder (fun _ ↦ none) a a where
  le := Nat.le_refl a
  bounds h := absurd h (by simp)
  onto hle hlt := absurd hlt (Nat.not_lt.2 hle)
  mono h := absurd h (by simp)

theorem among_nil (a : Nat) : PathOrder (among []) a a := by
  have hnone : among [] = fun _ ↦ none := funext fun path ↦ by cases path <;> rfl
  rw [hnone]
  exact nowhere a

/-- **Side by side**: what the first item leads to comes before what the others lead to. -/
theorem among_cons (h : PathOrder find a b) (hr : PathOrder (among finds) b c) :
    PathOrder (among (find :: finds)) a c where
  le := Nat.le_trans h.le hr.le
  bounds {path x} hx := by
    obtain - | ⟨- | k, r⟩ := path
    · exact absurd hx (by simp [among])
    · have hlt := h.bounds (show find r = some x from hx)
      have hle := hr.le
      omega
    · have hlt := hr.bounds (show among finds (k :: r) = some x from hx)
      have hle := h.le
      omega
  onto {x} hle hlt := by
    rcases Nat.lt_or_ge x b with hx | hx
    · obtain ⟨r, hr⟩ := h.onto hle hx
      exact ⟨0 :: r, hr⟩
    · obtain ⟨path, hpath⟩ := hr.onto hx hlt
      obtain - | ⟨k, r⟩ := path
      · exact absurd hpath (by simp [among])
      · exact ⟨(k + 1) :: r, hpath⟩
  mono {path path' x x'} hx hx' hlt := by
    obtain - | ⟨k, r⟩ := path
    · exact absurd hx (by simp [among])
    obtain - | ⟨k', r'⟩ := path'
    · exact absurd hx' (by simp [among])
    rw [List.cons_lt_cons_iff] at hlt
    obtain - | k := k
    · obtain - | k' := k'
      · exact h.mono (show find r = some x from hx) (show find r' = some x' from hx')
          (hlt.resolve_left (Nat.lt_irrefl 0)).2
      · have hbefore := h.bounds (show find r = some x from hx)
        have hafter := hr.bounds (show among finds (k' :: r') = some x' from hx')
        omega
    · obtain - | k' := k'
      · omega
      · refine hr.mono (show among finds (k :: r) = some x from hx)
          (show among finds (k' :: r') = some x' from hx') (List.cons_lt_cons_iff.2 ?_)
        exact hlt.imp Nat.lt_of_succ_lt_succ (And.imp_left Nat.succ.inj)

/-- **One above the others**: a number comes before all that it leads on to. -/
theorem rooted (h : PathOrder (among finds) (a + 1) b) :
    PathOrder (rooted a (among finds)) a b where
  le := Nat.le_of_succ_le h.le
  bounds {path x} hx := by
    have hle := h.le
    obtain - | ⟨k, r⟩ := path
    · obtain rfl : a = x := Option.some.inj hx
      omega
    · have hlt := h.bounds (show among finds (k :: r) = some x from hx)
      omega
  onto {x} hle hlt := by
    rcases Nat.eq_or_lt_of_le hle with rfl | hx
    · exact ⟨[], rfl⟩
    · obtain ⟨path, hpath⟩ := h.onto hx hlt
      obtain - | ⟨k, r⟩ := path
      · exact absurd hpath (by simp [among])
      · exact ⟨k :: r, hpath⟩
  mono {path path' x x'} hx hx' hlt := by
    obtain - | ⟨k', r'⟩ := path'
    · exact absurd hlt (List.not_lt_nil path)
    have hx' : among finds (k' :: r') = some x' := hx'
    obtain - | ⟨k, r⟩ := path
    · obtain rfl : a = x := Option.some.inj hx
      have hafter := h.bounds hx'
      omega
    · exact h.mono (show among finds (k :: r) = some x from hx) hx' hlt

/-- **One path leads to each number.** -/
theorem unique (h : PathOrder find a b) {path path' : List Nat} {x : Nat}
    (hx : find path = some x) (hx' : find path' = some x) : path = path' := by
  rcases lt_trichotomy path path' with hlt | heq | hlt
  · exact absurd (h.mono hx hx' hlt) (Nat.lt_irrefl x)
  · exact heq
  · exact absurd (h.mono hx' hx hlt) (Nat.lt_irrefl x)

theorem lt_iff (h : PathOrder find a b) {path path' : List Nat} {x x' : Nat}
    (hx : find path = some x) (hx' : find path' = some x') : x < x' ↔ path < path' := by
  refine ⟨fun hlt ↦ ?_, h.mono hx hx'⟩
  rcases lt_trichotomy path path' with hpath | rfl | hpath
  · exact hpath
  · rw [Option.some.inj (hx.symm.trans hx')] at hlt
    exact absurd hlt (Nat.lt_irrefl x')
  · exact absurd hlt (Nat.lt_asymm (h.mono hx' hx hpath))

end PathOrder

/-! ### Entries and what is asked of them -/

namespace Provider

variable {p : Provider}

theorem along?_eq (p : Provider) (h : Handle) :
    p.along? h = rooted h (among ((p.children h).map p.along?)) := by
  funext path
  obtain - | ⟨k, r⟩ := path
  · rfl
  · simp only [along?, rooted, among, List.getElem?_map, Option.bind_map]
    rfl

/-- The elements of a document, by their places below its root. -/
def inside? (p : Provider) (d : DocumentRoot) (path : List Nat) : Option Handle :=
  d.root.bind fun h ↦ p.along? h path

theorem atPath?_eq (p : Provider) : p.atPath? = among (p.documents.map p.inside?) := by
  funext path
  obtain - | ⟨k, r⟩ := path
  · rfl
  · simp only [atPath?, among, List.getElem?_map, Option.bind_map, Option.bind_assoc]
    rfl

/-- The provider answers for entries that are numbered from `h` on. -/
def Serves (p : Provider) (h : Handle) (entries : List SnapshotElement.Entry) : Prop :=
  ∀ (k : Nat) (e : SnapshotElement.Entry), entries[k]? = some e →
    p.measure (h + k) = (e.provided (h + k)).measure ∧ p.children (h + k) = e.children

namespace Serves

variable {h : Handle} {e : SnapshotElement.Entry} {l r : List SnapshotElement.Entry}

theorem head (hs : p.Serves h (e :: r)) :
    p.measure h = (e.provided h).measure ∧ p.children h = e.children :=
  hs 0 e rfl

theorem tail (hs : p.Serves h (e :: r)) : p.Serves (h + 1) r := fun k e' hk ↦ by
  have hnext := hs (k + 1) e' (by simpa using hk)
  rwa [Nat.add_comm k 1, ← Nat.add_assoc] at hnext

theorem left (hs : p.Serves h (l ++ r)) : p.Serves h l := fun k e' hk ↦
  hs k e' ((List.getElem?_append_left (List.getElem?_eq_some_iff.1 hk).1).trans hk)

theorem right (hs : p.Serves h (l ++ r)) : p.Serves (h + l.length) r := fun k e' hk ↦ by
  have hnext := hs (l.length + k) e' (by
    rwa [List.getElem?_append_right (Nat.le_add_right _ _), Nat.add_sub_cancel_left])
  rwa [← Nat.add_assoc] at hnext

end Serves

end Provider

/-! ### One element -/

theorem SnapshotBox.observed_eq (b : SnapshotBox) :
    b.observed = (b.measure?.map ofMeasure).getD .empty := by
  obtain ⟨tag, bounds, margin, border, padding, style, attributes, text, image⟩ := b
  cases bounds <;> rfl

namespace SnapshotElement

variable {p : Provider}

/-- **What is told of an entry** is what can be seen of the element. -/
theorem box?_of_serves {h : Handle} {box : SnapshotBox} {handles : List Handle} {r : List Entry}
    (hs : p.Serves h (⟨box.measure?, handles⟩ :: r)) : p.box? h = some box.observed := by
  rw [Provider.box?, hs.head.1, SnapshotBox.observed_eq]
  cases hmeasure : box.measure? with
  | some m => simp only [Entry.provided, Option.map_some, Option.getD_some]
  | none => simp only [Entry.provided, if_true, Option.map_none, Option.getD_none]

theorem observed_node (box : SnapshotBox) (children : List SnapshotElement) :
    (node box children).observed = node box.observed (children.map observed) := by
  rw [observed]

mutual

/-- **The tree from an element on is what can be seen of the element.** -/
theorem rebuild?_flatten : ∀ (e : SnapshotElement) (h : Handle), p.Serves h (e.flatten h) →
    ∀ {fuel : Nat}, (e.flatten h).length ≤ fuel → p.rebuild? fuel h = some e.observed
  | .node box children, h, hs, fuel, hfuel => by
    rw [flatten] at hs hfuel
    obtain ⟨fuel, rfl⟩ : ∃ n, fuel = n + 1 := ⟨fuel - 1, by rw [List.length_cons] at hfuel; omega⟩
    have hchildren := mapM_rebuild?_flattenAll children (h + 1) hs.tail
      (show (flattenAll (h + 1) children).2.length ≤ fuel from Nat.le_of_succ_le_succ hfuel)
    rw [Provider.rebuild?, box?_of_serves hs, hs.head.2, observed_node]
    show (((flattenAll (h + 1) children).1.mapM (p.rebuild? fuel)).bind fun l ↦
      some (node box.observed l)) = _
    rw [hchildren]
    rfl

theorem mapM_rebuild?_flattenAll : ∀ (es : List SnapshotElement) (h : Handle),
    p.Serves h (flattenAll h es).2 → ∀ {fuel : Nat}, (flattenAll h es).2.length ≤ fuel →
      (flattenAll h es).1.mapM (p.rebuild? fuel) = some (es.map observed)
  | [], _, _, _, _ => rfl
  | e :: r, h, hs, fuel, hfuel => by
    simp only [flattenAll, List.length_append] at hs hfuel ⊢
    have hfirst := rebuild?_flatten e h hs.left (show (flatten h e).length ≤ fuel by omega)
    have hrest := mapM_rebuild?_flattenAll r (h + (flatten h e).length) hs.right
      (show _ ≤ fuel by omega)
    rw [List.mapM_cons, hfirst, hrest]
    rfl

end

mutual

/-- **The paths from an element on lead to the numbers of its entries.** -/
theorem pathOrder_flatten : ∀ (e : SnapshotElement) (h : Handle), p.Serves h (e.flatten h) →
    PathOrder (p.along? h) h (h + (e.flatten h).length)
  | .node box children, h, hs => by
    rw [flatten] at hs ⊢
    have hchildren := pathOrder_flattenAll children (h + 1) hs.tail
    rw [Nat.add_assoc, Nat.add_comm 1] at hchildren
    rw [Provider.along?_eq, hs.head.2, List.length_cons]
    exact hchildren.rooted

theorem pathOrder_flattenAll : ∀ (es : List SnapshotElement) (h : Handle),
    p.Serves h (flattenAll h es).2 →
      PathOrder (among ((flattenAll h es).1.map p.along?)) h (h + (flattenAll h es).2.length)
  | [], h, _ => .among_nil h
  | e :: r, h, hs => by
    simp only [flattenAll, List.length_append, List.map_cons, ← Nat.add_assoc] at hs ⊢
    exact (pathOrder_flatten e h hs.left).among_cons
      (pathOrder_flattenAll r (h + (flatten h e).length) hs.right)

end

end SnapshotElement

/-! ### All documents -/

namespace Snapshot

/-- What the provider of a snapshot says of an element. -/
theorem element_provider (s : Snapshot) (h : Nat) :
    ((number 0 s.documents).2.zipIdx.map fun e ↦ e.1.provided e.2).toArray[h]? =
      ((number 0 s.documents).2[h]?).map (SnapshotElement.Entry.provided h) := by
  rw [List.getElem?_toArray, List.getElem?_map, List.getElem?_zipIdx, Option.map_map, Nat.zero_add]
  rfl

theorem serves_provider (s : Snapshot) : s.provider.Serves 0 (number 0 s.documents).2 := by
  intro k e hk
  simp only [provider, Provider.ofElements, Nat.zero_add]
  rw [element_provider, hk]
  exact ⟨rfl, rfl⟩

variable {p : Provider}

theorem rebuild?_number (ds : List (String × Option SnapshotElement)) (h : Handle)
    (hs : p.Serves h (number h ds).2) {fuel : Nat} (hfuel : (number h ds).2.length ≤ fuel) :
    (number h ds).1.map (fun d ↦ (d.name, d.root.map (p.rebuild? fuel))) =
      ds.map fun d ↦ (d.1, d.2.map fun e ↦ some e.observed) := by
  induction ds generalizing h with
  | nil => rfl
  | cons d r ih =>
    obtain ⟨name, _ | e⟩ := d
    · simp only [number, List.map_cons] at hs hfuel ⊢
      rw [ih h hs hfuel]
      rfl
    · simp only [number, List.map_cons, List.length_append] at hs hfuel ⊢
      rw [ih _ hs.right (by omega), Option.map_some,
        SnapshotElement.rebuild?_flatten e h hs.left (by omega)]
      rfl

theorem pathOrder_number (ds : List (String × Option SnapshotElement)) (h : Handle)
    (hs : p.Serves h (number h ds).2) :
    PathOrder (among ((number h ds).1.map p.inside?)) h (h + (number h ds).2.length) := by
  induction ds generalizing h with
  | nil => exact .among_nil h
  | cons d r ih =>
    obtain ⟨name, _ | e⟩ := d
    · simp only [number, List.map_cons] at hs ⊢
      exact (PathOrder.nowhere h).among_cons (ih h hs)
    · simp only [number, List.map_cons, List.length_append, ← Nat.add_assoc] at hs ⊢
      exact (SnapshotElement.pathOrder_flatten e h hs.left).among_cons (ih _ hs.right)

/-- **The provider of a snapshot gives back its elements**, document by document, and numbers them
depth first: there is one path to each number below the number of elements, no path leads to any
other number, and one number is less than another if its path comes first. Of other numbers it knows
no element. -/
theorem provider_gives_back (s : Snapshot) :
    (s.provider.documents.map fun d ↦ (d.name, d.root.map (s.provider.rebuild? s.elementCount))) =
        s.documents.map (fun d ↦ (d.1, d.2.map fun e ↦ some e.observed)) ∧
      (∀ h : Handle, h < s.elementCount → ∃! path, s.provider.atPath? path = some h) ∧
      (∀ path h, s.provider.atPath? path = some h → h < s.elementCount) ∧
      (∀ path path' h h', s.provider.atPath? path = some h → s.provider.atPath? path' = some h' →
        (h < h' ↔ path < path')) ∧
      ∀ h : Handle, s.elementCount ≤ h →
        s.provider.measure h = .error (.unknownElement h) ∧ s.provider.children h = [] := by
  have hserves := s.serves_provider
  have horder : PathOrder s.provider.atPath? 0 s.elementCount := by
    have hnumber := pathOrder_number s.documents 0 hserves
    rw [Nat.zero_add] at hnumber
    rw [Provider.atPath?_eq]
    exact hnumber
  refine ⟨rebuild?_number s.documents 0 hserves (Nat.le_refl _), fun h hlt ↦ ?_,
    fun path h hpath ↦ (horder.bounds hpath).2, fun path path' h h' ↦ horder.lt_iff,
    fun h hle ↦ ?_⟩
  · obtain ⟨path, hpath⟩ := horder.onto (Nat.zero_le h) hlt
    exact ⟨path, hpath, fun path' hpath' ↦ horder.unique hpath' hpath⟩
  · have hnone : (number 0 s.documents).2[h]? = none := List.getElem?_eq_none hle
    simp only [provider, Provider.ofElements]
    rw [element_provider, hnone]
    exact ⟨rfl, rfl⟩

/-- A document without a root has no number, and the next one goes on counting. -/
example :
    let leaf := SnapshotElement.node .empty []
    let p := (⟨[("a", some (.node .empty [leaf, leaf])), ("b", none), ("c", some leaf)]⟩ :
      Snapshot).provider
    p.atPath? [0, 1] = some 2 ∧ p.atPath? [1] = none ∧ p.atPath? [2] = some 3 := by decide

end Snapshot

/-! ### What is measured -/

namespace SnapshotElement

mutual

/-- What a snapshot has of an element and of all inside it. -/
def boxes : SnapshotElement → List SnapshotBox
  | .node box children => box :: boxesOf children

/-- What it has of some elements and of all inside them. -/
def boxesOf : List SnapshotElement → List SnapshotBox
  | [] => []
  | e :: r => e.boxes ++ boxesOf r

end

mutual

theorem map_measure_flatten : ∀ (e : SnapshotElement) (h : Handle),
    (e.flatten h).map Entry.measure = e.boxes.map SnapshotBox.measure?
  | .node box children, h => by
    rw [flatten, boxes, List.map_cons, List.map_cons, ← map_measure_flattenAll children (h + 1)]

theorem map_measure_flattenAll : ∀ (es : List SnapshotElement) (h : Handle),
    (flattenAll h es).2.map Entry.measure = (boxesOf es).map SnapshotBox.measure?
  | [], _ => rfl
  | e :: r, h => by
    rw [flattenAll, boxesOf, List.map_append, List.map_append, map_measure_flatten e h,
      map_measure_flattenAll r]

end

end SnapshotElement

/-- The texts, the attributes and the styles of an element. -/
def SnapshotBox.texts (b : SnapshotBox) : List String :=
  b.text.toList ++ b.attributes.entries.map Prod.snd ++ b.style.entries.map Prod.snd

namespace Snapshot

/-- What a snapshot has of all elements. -/
def boxes (s : Snapshot) : List SnapshotBox :=
  s.documents.flatMap fun d ↦ SnapshotElement.boxesOf d.2.toList

/-- All texts, attributes and styles in a snapshot. -/
def texts (s : Snapshot) : List String := s.boxes.flatMap SnapshotBox.texts

theorem map_measure_number (ds : List (String × Option SnapshotElement)) (h : Handle) :
    (number h ds).2.map SnapshotElement.Entry.measure =
      (boxes ⟨ds⟩).map SnapshotBox.measure? := by
  induction ds generalizing h with
  | nil => rfl
  | cons d r ih =>
    obtain ⟨name, _ | e⟩ := d
    · exact ih h
    · rw [number, boxes, List.flatMap_cons, List.map_append, List.map_append,
        SnapshotElement.map_measure_flatten, ih]
      simp only [Option.toList_some, SnapshotElement.boxesOf, List.append_nil]
      rfl

/-- **Only what is in a snapshot is measured.** -/
theorem exists_box {s : Snapshot} {h : Handle} {m : BoxMeasure}
    (hm : s.provider.measure h = .ok m) : ∃ box ∈ s.boxes, box.measure? = some m := by
  simp only [provider, Provider.ofElements, element_provider] at hm
  cases he : (number 0 s.documents).2[h]? with
  | none =>
    rw [he] at hm
    exact absurd hm (by simp)
  | some e =>
    have hmeasure : e.measure = some m := by
      rw [he, Option.map_some] at hm
      obtain ⟨_ | m', children⟩ := e
      · exact absurd hm (by simp [SnapshotElement.Entry.provided])
      · exact congrArg some (Except.ok.inj hm)
    have hmem : e.measure ∈ s.boxes.map SnapshotBox.measure? :=
      map_measure_number s.documents 0 ▸ List.mem_map_of_mem (List.mem_of_getElem? he)
    obtain ⟨box, hbox, heq⟩ := List.mem_map.1 hmem
    exact ⟨box, hbox, heq.trans hmeasure⟩

end Snapshot

end ViewCompiler
