import ViewCompiler.Proofs.Resource.Interning

/-!
# Which arrays share a name

An array is looked up by its items joined with a separator between them. Nothing keeps the separator
out of the items, and no item joins to the same text as one empty item. So the key of an array does
not stand for its items but for its `fields`, which is what reading the key gives: no other lists
share a key (`ValueStore.key_array_eq_iff`), and no others share a name
(`ValueStore.arrays_told_apart`).

Where no item has a separator in it and no list is empty, the fields are the items
(`ValueStore.fields_of_plain`). Over a history of such requests an array is never given the name of
another one, and what is stored under the name is the array.
-/

namespace ViewCompiler

namespace ValueStore

/-! ### Keys and fields -/

/-- The character between the items in the key of an array. -/
def separator : Char := Char.ofNat 0x1f

/-- What the key of an array can be read as. An item with separators in it comes to several fields,
and no item to an empty one. -/
def fields : List String → List (List Char)
  | [] => [[]]
  | items => items.flatMap fun item ↦ item.toList.splitOn separator

theorem toList_itemSeparator : itemSeparator.toList = [separator] := by
  simp [itemSeparator, separator]

/-- **Reading a joined text** splits each of its parts. -/
theorem splitOn_intercalate_eq_flatMap (c : Char) (part : List Char) (parts : List (List Char)) :
    ([c].intercalate (part :: parts)).splitOn c =
      (part :: parts).flatMap fun part ↦ part.splitOn c := by
  induction parts generalizing part with
  | nil => simp
  | cons next rest ih =>
    rw [List.intercalate_cons_cons, List.append_assoc, List.singleton_append, List.flatMap_cons,
      ← ih]
    exact List.splitOnP_append_cons _ _ (beq_self_eq_true c)

/-- The fields of an array are what its key is read as. -/
theorem splitOn_key (hint : String) (items : List String) :
    (Request.array hint items).key.toList.splitOn separator = fields items := by
  rw [Request.key, String.toList_intercalate, toList_itemSeparator]
  cases items with
  | nil => rfl
  | cons item rest =>
    rw [List.map_cons, splitOn_intercalate_eq_flatMap, ← List.map_cons, List.flatMap_map]
    rfl

/-- **Arrays share a key exactly if they have the same fields.** -/
theorem key_array_eq_iff (hint hint' : String) (xs ys : List String) :
    (Request.array hint xs).key = (Request.array hint' ys).key ↔ fields xs = fields ys := by
  rw [← splitOn_key hint, ← splitOn_key hint']
  constructor
  · exact fun h ↦ by rw [h]
  · intro h
    have hjoined := congrArg [separator].intercalate h
    rw [List.intercalate_splitOn, List.intercalate_splitOn] at hjoined
    exact String.toList_injective hjoined

/-- A list of items that are told apart by their fields: there are some, and no separator in
them. -/
structure Plain (items : List String) : Prop where
  ne_nil : items ≠ []
  not_mem : ∀ item ∈ items, separator ∉ item.toList

theorem fields_of_plain {items : List String} (h : Plain items) :
    fields items = items.map String.toList := by
  cases items with
  | nil => exact absurd rfl h.ne_nil
  | cons first rest =>
    rw [List.map_eq_flatMap]
    exact List.flatMap_congr fun item hitem ↦ List.splitOn_eq_singleton (h.not_mem item hitem)

theorem fields_eq_iff_of_plain {xs ys : List String} (hxs : Plain xs) (hys : Plain ys) :
    fields xs = fields ys ↔ xs = ys := by
  rw [fields_of_plain hxs, fields_of_plain hys]
  exact List.map_inj_right fun _ _ h ↦ String.toList_injective h

/-! ### What is stored -/

/-- The arrays among some requests. -/
def requestedArrays (calls : List Request) : List (List String) :=
  calls.filterMap fun
    | .array _ items => some items
    | _ => none

theorem requestedArrays_append (calls calls' : List Request) :
    requestedArrays (calls ++ calls') = requestedArrays calls ++ requestedArrays calls' :=
  List.filterMap_append

/-- What is stored under the key of an array is the first array that has been requested with it. -/
def FirstStored (calls : List Request) (s : ValueStore) : Prop :=
  ∀ e ∈ s.arrays.entries,
    (requestedArrays calls).find? (fun items ↦ itemSeparator.intercalate items = e.key) =
      some e.value

theorem firstStored_new (slug : String → String) (config : NameConfig) (palette : Palette) :
    FirstStored [] (new slug config palette) :=
  fun _ he ↦ absurd he List.not_mem_nil

theorem mem_requestedArrays {calls : List Request} {items : List String} :
    items ∈ requestedArrays calls ↔ ∃ hint, Request.array hint items ∈ calls := by
  rw [requestedArrays, List.mem_filterMap]
  constructor
  · rintro ⟨r, hr, hitems⟩
    cases r with
    | array hint items' => exact ⟨hint, Option.some.inj hitems ▸ hr⟩
    | _ => exact absurd hitems (by simp)
  · rintro ⟨hint, hr⟩
    exact ⟨_, hr, rfl⟩

/-- A key that is not stored has not been requested. -/
theorem Kept.find?_requestedArrays {calls : List Request} {s : ValueStore} (h : Kept calls s)
    {key : String} (hkey : key ∉ s.arrays.keys) :
    (requestedArrays calls).find? (fun items ↦ itemSeparator.intercalate items = key) = none := by
  refine List.find?_eq_none.2 fun items hitems heq ↦ hkey ?_
  obtain ⟨hint, hr⟩ := mem_requestedArrays.1 hitems
  have hkeys : s.arrays.keys = _ := h.keys .array
  rw [hkeys, List.mem_eraseDups]
  exact List.mem_map.2 ⟨_, List.mem_filter.2 ⟨hr, by simp [Request.kind]⟩, of_decide_eq_true heq⟩

/-- **One more request** stores an array only if none with its key has been requested before. -/
theorem FirstStored.answer {calls : List Request} {s : ValueStore} (h : FirstStored calls s)
    (hkept : Kept calls s) (r : Request) : FirstStored (calls ++ [r]) (s.answer r).2 := by
  intro e he
  rw [requestedArrays_append, List.find?_append]
  by_cases hold : e ∈ s.arrays.entries
  · rw [h e hold, Option.some_or]
  by_cases hkind : r.kind = .array
  · cases r with
    | array hint items =>
      obtain ⟨fresh, hfresh⟩ : ∃ fresh, (s.answer (.array hint items)).2.arrays =
          (s.arrays.request (itemSeparator.intercalate items) fresh items).2 := ⟨_, rfl⟩
      rw [hfresh] at he
      rcases s.arrays.request_cases (itemSeparator.intercalate items) fresh items with
        ⟨name, -, hok⟩ | ⟨hnew, hok⟩
      · rw [hok] at he
        exact absurd he hold
      · rw [hok] at he
        obtain rfl := List.mem_singleton.1 ((List.mem_append.1 he).resolve_left hold)
        rw [hkept.find?_requestedArrays hnew, Option.none_or]
        simp [requestedArrays]
    | _ => exact absurd hkind (by simp [Request.kind])
  · refine absurd ?_ hold
    have htable : (s.answer r).2.arrays = s.arrays := s.table_answer_of_ne r hkind
    rwa [htable] at he

theorem FirstStored.answerAll {calls : List Request} {s : ValueStore} (h : FirstStored calls s)
    (hkept : Kept calls s) (rs : List Request) : FirstStored (calls ++ rs) (s.answerAll rs).2 := by
  induction rs generalizing calls s with
  | nil => rwa [List.append_nil]
  | cons r rs ih =>
    rw [List.append_cons]
    exact ih (h.answer hkept r) (hkept.answer r)

/-! ### Two requests after any others -/

/-- The array with a name. -/
def arrayNamed? (s : ValueStore) (name : String) : Option (List String) :=
  (s.arrays.entries.find? fun e ↦ e.name = name).map Entry.value

/-- **What is stored under the name of a request**: the first array that has been requested with its
fields. -/
theorem FirstStored.arrayNamed?_eq {calls : List Request} {s : ValueStore}
    (h : FirstStored calls s) (hnodup : s.arrays.names.Nodup) {hint name : String}
    {items : List String} (hname : s.arrays.name? (Request.array hint items).key = some name) :
    s.arrayNamed? name =
      (requestedArrays calls).find? fun other ↦ fields other = fields items := by
  obtain ⟨e, he, hkey, rfl⟩ := Table.mem_of_name? hname
  have hfound : s.arrays.entries.find? (fun e' ↦ e'.name = e.name) = some e := by
    refine (List.find?_eq_some_iff_append).2 ⟨by simp, ?_⟩
    obtain ⟨before, after, hsplit⟩ := List.append_of_mem he
    refine ⟨before, after, hsplit, fun e' he' ↦ ?_⟩
    rw [Table.names, hsplit, List.map_append, List.nodup_append] at hnodup
    have hne := hnodup.2.2 e'.name (List.mem_map_of_mem he') e.name (by simp)
    simpa using hne
  have hsame : ∀ other, itemSeparator.intercalate other = e.key ↔ fields other = fields items :=
    fun other ↦ hkey ▸ key_array_eq_iff hint hint other items
  rw [arrayNamed?, hfound, Option.map_some, ← h e he]
  simp only [hsame]

/-- Among arrays that are told apart by their fields the first with the fields of one is that
one. -/
theorem find?_fields_of_plain {arrays : List (List String)} (h : ∀ items ∈ arrays, Plain items)
    {items : List String} (hmem : items ∈ arrays) :
    arrays.find? (fun other ↦ fields other = fields items) = some items := by
  have hsome : (arrays.find? fun other ↦ fields other = fields items).isSome :=
    List.find?_isSome.2 ⟨items, hmem, by simp⟩
  obtain ⟨found, hfound⟩ := Option.isSome_iff_exists.1 hsome
  have hfields : fields found = fields items := by simpa using List.find?_some hfound
  rw [hfound, (fields_eq_iff_of_plain (h found (List.mem_of_find?_eq_some hfound))
    (h items hmem)).1 hfields]

/-- **Arrays are told apart by their fields.** After any requests, two arrays get one name exactly
if they have the same fields, and what is stored under a name is the first array that has been
requested with its fields. Where all arrays have items and no separators in them, two of them get
one name exactly if they are equal, and what is stored under it is what has been requested. -/
theorem arrays_told_apart (slug : String → String) (config : NameConfig) (palette : Palette)
    (calls : List Request) (hint hint' : String) (xs ys : List String) :
    let s := ((new slug config palette).answerAll calls).2
    let first := s.stringArray hint xs
    let second := first.2.stringArray hint' ys
    (first.1 = second.1 ↔ fields xs = fields ys) ∧
      first.2.arrayNamed? first.1 =
        (requestedArrays calls ++ [xs]).find? (fun items ↦ fields items = fields xs) ∧
      ((∀ items ∈ xs :: ys :: requestedArrays calls, Plain items) →
        (first.1 = second.1 ↔ xs = ys) ∧ second.2.arrayNamed? first.1 = some xs ∧
          second.2.arrayNamed? second.1 = some ys) := by
  intro s first second
  have hkept : Kept calls s := by
    simpa using (Kept.new slug config palette).answerAll calls
  have hstored : FirstStored calls s := by
    simpa using (firstStored_new slug config palette).answerAll (.new _ _ _) calls
  have hkept₁ : Kept _ first.2 := hkept.answer (.array hint xs)
  have hkept₂ : Kept _ second.2 := hkept₁.answer (.array hint' ys)
  have hstored₁ : FirstStored _ first.2 := hstored.answer hkept (.array hint xs)
  have hstored₂ : FirstStored _ second.2 := hstored₁.answer hkept₁ (.array hint' ys)
  have hname : first.2.arrays.name? (Request.array hint xs).key = some first.1 :=
    s.name?_of_mem_answers [.array hint xs] _ List.mem_cons_self
  have hname' : second.2.arrays.name? (Request.array hint xs).key = some first.1 :=
    Table.name?_of_prefix (Extends.answer first.2 (.array hint' ys) .array) hname
  have hname₂ : second.2.arrays.name? (Request.array hint' ys).key = some second.1 :=
    first.2.name?_of_mem_answers [.array hint' ys] _ List.mem_cons_self
  have hnames : first.1 = second.1 ↔ fields xs = fields ys := by
    rw [← key_array_eq_iff hint hint']
    constructor
    · exact fun heq ↦ Table.key_eq_of_name (hkept₂.names .array) (heq ▸ hname') hname₂
    · exact fun heq ↦ Option.some.inj ((heq ▸ hname').symm.trans hname₂)
  have hrequested : requestedArrays (calls ++ [.array hint xs] ++ [.array hint' ys]) =
      requestedArrays calls ++ [xs, ys] := by
    simp [requestedArrays]
  refine ⟨hnames, ?_, fun hplain ↦ ?_⟩
  · rw [hstored₁.arrayNamed?_eq (hkept₁.names .array) hname, requestedArrays_append]
    rfl
  · have hall : ∀ items ∈ requestedArrays calls ++ [xs, ys], Plain items := fun items hitems ↦
      hplain items (List.perm_append_comm.mem_iff.1 hitems)
    refine ⟨?_, ?_, ?_⟩
    · rw [hnames]
      exact fields_eq_iff_of_plain (hplain xs (by simp)) (hplain ys (by simp))
    · rw [hstored₂.arrayNamed?_eq (hkept₂.names .array) hname', hrequested]
      exact find?_fields_of_plain hall (by simp)
    · rw [hstored₂.arrayNamed?_eq (hkept₂.names .array) hname₂, hrequested]
      exact find?_fields_of_plain hall (by simp)

/-- Two selections, of which the second has one more option, after one with other options. -/
theorem arrays_told_apart_oneMore :
    (∀ items ∈ ["Red"] :: ["Red", "Blue"] :: requestedArrays [.array "size" ["S", "M"]],
        Plain items) ∧
      let s := ((new Text.asciiSlug .default .basic).answerAll [.array "size" ["S", "M"]]).2
      let first := s.stringArray "color" ["Red"]
      let second := first.2.stringArray "color" ["Red", "Blue"]
      first.1 ≠ second.1 ∧ second.2.arrayNamed? first.1 = some ["Red"] ∧
        second.2.arrayNamed? second.1 = some ["Red", "Blue"] := by
  have hplain : ∀ items ∈ ["Red"] :: ["Red", "Blue"] ::
      requestedArrays [.array "size" ["S", "M"]], Plain items := by
    simp only [requestedArrays, List.filterMap_cons, List.filterMap_nil, List.mem_cons,
      List.not_mem_nil, or_false]
    rintro items (rfl | rfl | rfl) <;> exact ⟨by simp, by decide⟩
  obtain ⟨hnames, hfirst, hsecond⟩ := (arrays_told_apart Text.asciiSlug .default .basic
    [.array "size" ["S", "M"]] "color" "color" ["Red"] ["Red", "Blue"]).2.2 hplain
  exact ⟨hplain, fun heq ↦ absurd (hnames.1 heq) (by decide), hfirst, hsecond⟩

/-- An item with a separator in it reads like two items, and no items like an empty one. -/
example : fields ["a\x1fb"] = fields ["a", "b"] ∧ fields [] = fields [""] := by decide

end ValueStore

end ViewCompiler
