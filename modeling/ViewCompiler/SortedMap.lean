/-!
# Maps in the order of their keys

A map holds its entries in a list that is strictly ascending in the keys, so that two maps with
the same look-ups are equal and a walk over a map meets the keys in order.  `SortedMap.get?_insert`
and `SortedMap.get?_erase` say what the two operations do to every look-up.
-/

namespace ViewCompiler

/-- A finite map, kept as entries with strictly ascending keys. -/
structure SortedMap (α β : Type) [Ord α] where
  entries : List (α × β)
  ascending : entries.Pairwise fun a b => compare a.1 b.1 = .lt

namespace SortedMap

variable {α β γ : Type} [Ord α]

instance [DecidableEq α] [DecidableEq β] : DecidableEq (SortedMap α β) := fun a b =>
  if h : a.entries = b.entries then
    .isTrue (by cases a; cases b; cases h; rfl)
  else .isFalse (by rintro rfl; exact h rfl)

def empty : SortedMap α β := ⟨[], .nil⟩

instance : Inhabited (SortedMap α β) := ⟨empty⟩

instance : EmptyCollection (SortedMap α β) := ⟨empty⟩

/-! ### Look-up -/

/-- The value of a key in a list of entries. -/
def lookup (k : α) : List (α × β) → Option β
  | [] => none
  | (k', v) :: r => if compare k k' = .eq then some v else lookup k r

def get? (m : SortedMap α β) (k : α) : Option β := lookup k m.entries

def getD (m : SortedMap α β) (k : α) (v : β) : β := (m.get? k).getD v

def contains (m : SortedMap α β) (k : α) : Bool := (m.get? k).isSome

def keys (m : SortedMap α β) : List α := m.entries.map Prod.fst

def values (m : SortedMap α β) : List β := m.entries.map Prod.snd

def isEmpty (m : SortedMap α β) : Bool := m.entries.isEmpty

def size (m : SortedMap α β) : Nat := m.entries.length

/-! ### Change -/

/-- Puts an entry at its place, instead of an entry with the same key. -/
def insertEntry (k : α) (v : β) : List (α × β) → List (α × β)
  | [] => [(k, v)]
  | (k', v') :: r =>
    match compare k k' with
    | .lt => (k, v) :: (k', v') :: r
    | .eq => (k, v) :: r
    | .gt => (k', v') :: insertEntry k v r

theorem mem_insertEntry {k : α} {v : β} {e : α × β} {l : List (α × β)}
    (h : e ∈ insertEntry k v l) : e = (k, v) ∨ e ∈ l := by
  induction l with
  | nil => exact .inl (by simpa [insertEntry] using h)
  | cons x r ih =>
    obtain ⟨k', v'⟩ := x
    unfold insertEntry at h
    split at h
    · simpa using h
    · rcases List.mem_cons.1 h with h | h
      · exact .inl h
      · exact .inr (List.mem_cons_of_mem _ h)
    · rcases List.mem_cons.1 h with h | h
      · exact .inr (h ▸ List.mem_cons_self)
      · rcases ih h with h | h
        · exact .inl h
        · exact .inr (List.mem_cons_of_mem _ h)

theorem insertEntry_ascending [Std.TransOrd α] (k : α) (v : β) {l : List (α × β)}
    (h : l.Pairwise fun a b => compare a.1 b.1 = .lt) :
    (insertEntry k v l).Pairwise fun a b => compare a.1 b.1 = .lt := by
  induction l with
  | nil => exact List.pairwise_singleton _ _
  | cons x r ih =>
    obtain ⟨k', v'⟩ := x
    obtain ⟨hx, hr⟩ := List.pairwise_cons.1 h
    unfold insertEntry
    split
    · rename_i hk
      refine List.pairwise_cons.2 ⟨fun e he => ?_, h⟩
      rcases List.mem_cons.1 he with rfl | he
      · exact hk
      · exact Std.TransCmp.lt_trans hk (hx e he)
    · rename_i hk
      exact List.pairwise_cons.2
        ⟨fun e he => Std.TransCmp.lt_of_eq_of_lt hk (hx e he), hr⟩
    · rename_i hk
      refine List.pairwise_cons.2 ⟨fun e he => ?_, ih hr⟩
      rcases mem_insertEntry he with rfl | he
      · exact Std.OrientedCmp.lt_of_gt hk
      · exact hx e he

/-- The map with `v` at `k`. -/
def insert [Std.TransOrd α] (m : SortedMap α β) (k : α) (v : β) : SortedMap α β :=
  ⟨insertEntry k v m.entries, insertEntry_ascending k v m.ascending⟩

/-- The entries that satisfy `p`. -/
def filter (p : α → β → Bool) (m : SortedMap α β) : SortedMap α β :=
  ⟨m.entries.filter fun e => p e.1 e.2, m.ascending.filter _⟩

/-- The map without `k`. -/
def erase (m : SortedMap α β) (k : α) : SortedMap α β :=
  m.filter fun k' _ => compare k k' != .eq

/-- The map with every value changed by `f`. -/
def map (f : α → β → γ) (m : SortedMap α β) : SortedMap α γ :=
  ⟨m.entries.map fun e => (e.1, f e.1 e.2), List.pairwise_map.2 m.ascending⟩

/-- Takes the entries over one after another; of two with the same key the later one stays. -/
def insertAll [Std.TransOrd α] (m : SortedMap α β) (l : List (α × β)) : SortedMap α β :=
  l.foldl (fun m e => m.insert e.1 e.2) m

/-- The map of a list of entries; of two with the same key the later one stays. -/
def ofList [Std.TransOrd α] (l : List (α × β)) : SortedMap α β := insertAll empty l

def toList (m : SortedMap α β) : List (α × β) := m.entries

/-! ### Laws -/

@[simp] theorem get?_empty (k : α) : (empty : SortedMap α β).get? k = none := rfl

section Laws

variable [Std.LawfulEqOrd α]

theorem lookup_insertEntry [DecidableEq α] (k k' : α) (v : β) (l : List (α × β)) :
    lookup k' (insertEntry k v l) = if k' = k then some v else lookup k' l := by
  induction l with
  | nil => simp [insertEntry, lookup, Std.LawfulEqCmp.compare_eq_iff_eq]
  | cons x r ih =>
    obtain ⟨k₀, v₀⟩ := x
    unfold insertEntry
    split
    · simp [lookup, Std.LawfulEqCmp.compare_eq_iff_eq]
    · rename_i hk
      obtain rfl := Std.LawfulEqCmp.compare_eq_iff_eq.1 hk
      by_cases h : k' = k <;> simp [lookup, Std.LawfulEqCmp.compare_eq_iff_eq, h]
    · rename_i hk
      have hne : k ≠ k₀ := by
        rintro rfl
        simp [Std.ReflCmp.compare_self] at hk
      simp only [lookup, Std.LawfulEqCmp.compare_eq_iff_eq, ih]
      by_cases h₀ : k' = k₀
      · subst h₀
        simp [Ne.symm hne]
      · simp [h₀]

@[simp] theorem get?_insert [Std.TransOrd α] [DecidableEq α] (m : SortedMap α β) (k k' : α)
    (v : β) :
    (m.insert k v).get? k' = if k' = k then some v else m.get? k' :=
  lookup_insertEntry k k' v m.entries

theorem get?_erase [DecidableEq α] (m : SortedMap α β) (k k' : α) :
    (m.erase k).get? k' = if k' = k then none else m.get? k' := by
  obtain ⟨l, hl⟩ := m
  simp only [erase, filter, get?]
  clear hl
  induction l with
  | nil => simp [lookup]
  | cons x r ih =>
    obtain ⟨k₀, v₀⟩ := x
    by_cases h : compare k k₀ = .eq
    · obtain rfl := Std.LawfulEqCmp.compare_eq_iff_eq.1 h
      by_cases h' : k' = k <;> simp_all [lookup, Std.LawfulEqCmp.compare_eq_iff_eq]
    · have hne : k ≠ k₀ := fun e => h (Std.LawfulEqCmp.compare_eq_iff_eq.2 e)
      by_cases h' : k' = k₀
      · subst h'
        simp [lookup, Std.LawfulEqCmp.compare_eq_iff_eq, hne, Ne.symm hne]
      · simp [lookup, Std.LawfulEqCmp.compare_eq_iff_eq, hne, h', ih]

end Laws

end SortedMap

end ViewCompiler
