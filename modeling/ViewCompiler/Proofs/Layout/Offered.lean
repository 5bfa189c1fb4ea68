import ViewCompiler.Proofs.Layout.Planting
import ViewCompiler.Proofs.Snapshot

/-!
# Providers that offer the same

A document is made into nodes by asking a provider for what is inside its root, and for nothing
else. Two providers that agree on these elements make the same nodes of it, with the same errors
(`Provider.Agree.document_eq`), whatever else they offer.

One of the two walks may be given more steps than the other, since the number of steps depends on
all elements of the provider. Steps to spare make no difference (`Ingest.walk_eq_of_le`).

A snapshot numbers its elements in the order of its documents. So one with documents after those of
another agrees with it on all elements of the first documents (`Snapshot.agree_append`).
-/

namespace ViewCompiler

/-- Providers that say the same of some elements and of all inside them. -/
structure Provider.Agree (known : Handle → Prop) (p p' : Provider) : Prop where
  measure : ∀ {h}, known h → p'.measure h = p.measure h
  children : ∀ {h}, known h → p'.children h = p.children h
  closed : ∀ {h}, known h → ∀ c ∈ p.children h, known c

namespace Ingest

variable {p p' : Provider} {known : Handle → Prop}

/-- What is to be met inside an element is inside it. -/
theorem meet_snd_cases (p : Provider) (s : State) (task : Task) :
    (meet p s task).2 = [] ∨
      ∃ parent layoutParent, (meet p s task).2 = tasks p parent layoutParent task.element := by
  rw [meet]
  split
  · exact .inl rfl
  · split
    · exact .inl rfl
    · rw [meetElement_eq]
      split
      · exact .inl rfl
      · exact .inr ⟨_, _, rfl⟩
      · exact .inr ⟨_, _, rfl⟩

theorem length_meet_le (p : Provider) (s : State) (task : Task) :
    (meet p s task).2.length ≤ (p.children task.element).length := by
  rcases meet_snd_cases p s task with h | ⟨parent, layoutParent, h⟩
  · rw [h]
    exact Nat.zero_le _
  · rw [h, tasks, List.length_map]

/-- **Steps to spare make no difference.** -/
theorem walk_eq_of_le {fuel fuel' : Nat} {s : State} {ts : List Task}
    (hfuel : potential p s.visited + ts.length ≤ fuel) (hle : fuel ≤ fuel') :
    walk p fuel' s ts = walk p fuel s ts := by
  induction fuel generalizing fuel' s ts with
  | zero =>
    obtain rfl : ts = [] := List.eq_nil_of_length_eq_zero (by omega)
    rw [walk, walk]
  | succ fuel ih =>
    obtain ⟨fuel', rfl⟩ : ∃ n, fuel' = n + 1 := ⟨fuel' - 1, by omega⟩
    cases ts with
    | nil => rw [walk, walk]
    | cons task rest =>
      rw [List.length_cons] at hfuel
      by_cases hold : task.element ∈ s.visited
      · rw [walk_old hold, walk_old hold]
        exact ih (by omega) (by omega)
      · -- what is inside the element is met at the expense of the potential
        have hless := potential_cons p hold
        have hlength := length_meet_le p { s with visited := task.element :: s.visited } task
        rw [walk_new hold, walk_new hold]
        refine ih ?_ (by omega)
        rw [visited_meet, List.length_append]
        show potential p (task.element :: s.visited) + _ ≤ fuel
        omega

end Ingest

namespace Provider.Agree

open Ingest

variable {p p' : Provider} {known : Handle → Prop} (h : Agree known p p')

include h

theorem meet_eq {task : Task} (hknown : known task.element) (s : State) :
    meet p' s task = meet p s task := by
  have htasks : ∀ parent layoutParent, tasks p' parent layoutParent task.element =
      tasks p parent layoutParent task.element := fun parent layoutParent ↦ by
    rw [tasks, tasks, h.children hknown]
  rw [meet, meet, h.measure hknown]
  cases p.measure task.element with
  | error e => rfl
  | ok m =>
    dsimp only
    rw [meetElement_eq, meetElement_eq, htasks, htasks]

theorem known_meet {task : Task} (hknown : known task.element) (s : State) :
    ∀ inner ∈ (meet p s task).2, known inner.element := by
  intro inner hinner
  rcases meet_snd_cases p s task with hnil | ⟨parent, layoutParent, htasks⟩
  · exact absurd (hnil ▸ hinner) List.not_mem_nil
  · rw [htasks, tasks, List.mem_map] at hinner
    obtain ⟨c, hc, rfl⟩ := hinner
    exact h.closed hknown c hc

/-- With the same number of steps both walks are the same. -/
theorem walk_eq (fuel : Nat) (s : State) {ts : List Task}
    (hknown : ∀ task ∈ ts, known task.element) : walk p' fuel s ts = walk p fuel s ts := by
  induction fuel generalizing s ts with
  | zero =>
    cases ts with
    | nil => rw [walk, walk]
    | cons task rest => rfl
  | succ fuel ih =>
    cases ts with
    | nil => rw [walk, walk]
    | cons task rest =>
      have htask := hknown task List.mem_cons_self
      have hrest : ∀ task ∈ rest, known task.element := fun task htask ↦
        hknown task (List.mem_cons_of_mem _ htask)
      by_cases hold : task.element ∈ s.visited
      · rw [walk_old hold, walk_old hold]
        exact ih s hrest
      · rw [walk_new hold, walk_new hold, h.meet_eq htask]
        refine ih _ fun inner hinner ↦ ?_
        exact (List.mem_append.1 hinner).elim (h.known_meet htask _ inner) (hrest inner)

/-- **A document is made into the same nodes.** -/
theorem document_eq {root : Handle} (hknown : known root) (t : NodeTree) (warned : List String) :
    document p' t warned root = document p t warned root := by
  have hwalk : ∀ (s : State) (parent owner : NodeId), s.visited = [root] →
      walk p' (bound p' root) s (tasks p' parent owner root) =
        walk p (bound p root) s (tasks p parent owner root) := by
    intro s parent owner hvisited
    have hlength : (tasks p parent owner root).length = (p.children root).length := by
      rw [tasks, List.length_map]
    have hmet : ∀ task ∈ tasks p parent owner root, known task.element := fun task htask ↦ by
      obtain ⟨c, hc, rfl⟩ := List.mem_map.1 htask
      exact h.closed hknown c hc
    have hsame : tasks p' parent owner root = tasks p parent owner root := by
      rw [tasks, tasks, h.children hknown]
    have hbound := potential_le_bound p root
    have hbound' := potential_le_bound p' root
    rw [h.children hknown] at hbound'
    calc
      _ = walk p' (bound p root + bound p' root) s (tasks p' parent owner root) := by
        refine (walk_eq_of_le ?_ (Nat.le_add_left _ _)).symm
        rw [hvisited, hsame, hlength]
        exact hbound'
      _ = walk p (bound p root + bound p' root) s (tasks p parent owner root) := by
        rw [hsame, h.walk_eq _ s hmet]
      _ = _ := by
        refine walk_eq_of_le ?_ (Nat.le_add_right _ _)
        rw [hvisited, hlength]
        exact hbound
  unfold document
  rw [h.measure hknown]
  cases p.measure root with
  | error e => rfl
  | ok m =>
    dsimp only
    rw [hwalk _ _ _ (visited_fill _ _ _ _)]

end Provider.Agree

/-! ### Snapshots -/

namespace SnapshotElement

mutual

/-- The elements inside an element come right after it. -/
theorem children_flatten (h : Nat) : ∀ (e : SnapshotElement), ∀ entry ∈ flatten h e,
    ∀ c : Nat, c ∈ entry.children → h ≤ c ∧ c < h + (flatten h e).length
  | .node box children => by
    have hall := children_flattenAll (h + 1) children
    intro entry hentry c hc
    simp only [flatten, List.mem_cons, List.length_cons] at hentry ⊢
    rcases hentry with rfl | hentry
    · have hlt := hall.1 c hc
      omega
    · have hlt := hall.2 entry hentry c hc
      omega

theorem children_flattenAll (h : Nat) : ∀ (es : List SnapshotElement),
    (∀ c : Nat, c ∈ (flattenAll h es).1 → h ≤ c ∧ c < h + (flattenAll h es).2.length) ∧
      ∀ entry ∈ (flattenAll h es).2, ∀ c : Nat, c ∈ entry.children →
        h ≤ c ∧ c < h + (flattenAll h es).2.length
  | [] => by simp [flattenAll]
  | e :: r => by
    have hfirst := children_flatten h e
    have hrest := children_flattenAll (h + (flatten h e).length) r
    have hpos : 0 < (flatten h e).length := by
      cases e
      simp [flatten]
    simp only [flattenAll, List.mem_cons, List.mem_append, List.length_append]
    refine ⟨fun c hc ↦ ?_, fun entry hentry c hc ↦ ?_⟩
    · rcases hc with rfl | hc
      · omega
      · have hlt := hrest.1 c hc
        omega
    · rcases hentry with hentry | hentry
      · have hlt := hfirst entry hentry c hc
        omega
      · have hlt := hrest.2 entry hentry c hc
        omega

end

end SnapshotElement

namespace Snapshot

/-- Documents after others are numbered after them. -/
theorem number_append (h : Nat) (ds more : List (String × Option SnapshotElement)) :
    number h (ds ++ more) =
      ((number h ds).1 ++ (number (h + (number h ds).2.length) more).1,
        (number h ds).2 ++ (number (h + (number h ds).2.length) more).2) := by
  induction ds generalizing h with
  | nil => rfl
  | cons d r ih =>
    obtain ⟨name, _ | e⟩ := d
    · simp only [List.cons_append, number, ih]
    · simp only [List.cons_append, number, ih, List.append_assoc, List.length_append,
        Nat.add_assoc]

theorem names_number (h : Nat) (ds : List (String × Option SnapshotElement)) :
    (number h ds).1.map DocumentRoot.name = ds.map Prod.fst := by
  induction ds generalizing h with
  | nil => rfl
  | cons d r ih => obtain ⟨name, _ | e⟩ := d <;> simp only [number, List.map_cons, ih]

/-- The roots and what is inside elements are numbered. -/
theorem lt_of_number (h : Nat) (ds : List (String × Option SnapshotElement)) :
    (∀ d ∈ (number h ds).1, ∀ root : Nat, d.root = some root → root < h + (number h ds).2.length) ∧
      ∀ entry ∈ (number h ds).2, ∀ c : Nat, c ∈ entry.children →
        c < h + (number h ds).2.length := by
  induction ds generalizing h with
  | nil => simp [number]
  | cons d r ih =>
    obtain ⟨name, _ | e⟩ := d
    · simp only [number, List.mem_cons]
      refine ⟨fun d hd root hroot ↦ ?_, (ih h).2⟩
      rcases hd with rfl | hd
      · exact absurd hroot (by simp)
      · exact (ih h).1 d hd root hroot
    · have hinner := SnapshotElement.children_flatten h e
      have hrest := ih (h + (e.flatten h).length)
      have hpos : 0 < (e.flatten h).length := by
        cases e
        simp [SnapshotElement.flatten]
      simp only [number, List.mem_cons, List.mem_append, List.length_append]
      refine ⟨fun d hd root hroot ↦ ?_, fun entry hentry c hc ↦ ?_⟩
      · rcases hd with rfl | hd
        · obtain rfl : h = root := Option.some.inj hroot
          omega
        · have hlt := hrest.1 d hd root hroot
          omega
      · rcases hentry with hentry | hentry
        · have hlt := hinner entry hentry c hc
          omega
        · have hlt := hrest.2 entry hentry c hc
          omega

variable (s : Snapshot) (more : List (String × Option SnapshotElement))

/-- **With further documents** a snapshot says the same of the elements that it has without. -/
theorem agree_append : Provider.Agree (fun h ↦ h < s.elementCount) s.provider
    (⟨s.documents ++ more⟩ : Snapshot).provider := by
  have hsame : ∀ h : Nat, h < s.elementCount →
      ((number 0 (s.documents ++ more)).2.zipIdx.map fun e ↦ e.1.provided e.2).toArray[h]? =
        ((number 0 s.documents).2.zipIdx.map fun e ↦ e.1.provided e.2).toArray[h]? := by
    intro h hlt
    rw [element_provider ⟨s.documents ++ more⟩, element_provider, number_append,
      List.getElem?_append_left hlt]
  refine ⟨fun {h} hlt ↦ ?_, fun {h} hlt ↦ ?_, fun {h} hlt c hc ↦ ?_⟩
  · simp only [provider, Provider.ofElements]
    rw [hsame h hlt]
  · simp only [provider, Provider.ofElements]
    rw [hsame h hlt]
  · simp only [provider, Provider.ofElements] at hc
    rw [element_provider s h, List.getElem?_eq_getElem hlt, Option.map_some] at hc
    have hinner := (lt_of_number 0 s.documents).2 _ (List.getElem_mem hlt) c hc
    rwa [Nat.zero_add] at hinner

/-- The documents of a snapshot come first. -/
theorem documents_provider_append : ∃ rest, rest.map DocumentRoot.name = more.map Prod.fst ∧
    (⟨s.documents ++ more⟩ : Snapshot).provider.documents = s.provider.documents ++ rest := by
  refine ⟨(number (0 + (number 0 s.documents).2.length) more).1, names_number _ _, ?_⟩
  show (number 0 (s.documents ++ more)).1 = (number 0 s.documents).1 ++ _
  rw [number_append]

theorem root_lt_elementCount {d : DocumentRoot} (hd : d ∈ s.provider.documents) {root : Handle}
    (hroot : d.root = some root) : root < s.elementCount := by
  have hlt := (lt_of_number 0 s.documents).1 d hd root hroot
  rwa [Nat.zero_add] at hlt

end Snapshot

end ViewCompiler
