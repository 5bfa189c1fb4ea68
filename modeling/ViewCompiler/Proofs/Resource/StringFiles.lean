import ViewCompiler.Proofs.Resource.Reading
import ViewCompiler.Resource.Tables
import ViewCompiler.Style

/-!
# Reading the files of strings

The platform reads a string in two steps. The text of an element is what stands between its tags,
with the entities undone; in this text a backslash has to be in front of every quote and of every
other backslash, and is in front of the letter of a line end and of a mark of a reference.

Strings and the items of arrays are written with such backslashes, and read as they were
(`ResourceTables.strings_read`). Font families are resources of the same kind but are written
without any: their file holds them, but what the platform reads in it is something else for each
family that has a quote or a backslash, or nothing at all (`ResourceTables.fonts_read_iff`).
-/

namespace ViewCompiler

namespace ResourceTables

/-! ### Escapes -/

/-- A character that has a backslash in front wherever it is in a string. -/
def isSpecial (c : Char) : Bool := c == '\\' || c == '\'' || c == '"'

/-- Undoes the escapes that can be anywhere. A special character without a backslash in front is
malformed, and so is a backslash in front of any other. -/
def unescapeInner? : List Char → Option (List Char)
  | [] => some []
  | '\\' :: 'n' :: r => (unescapeInner? r).map ('\n' :: ·)
  | '\\' :: c :: r => if isSpecial c then (unescapeInner? r).map (c :: ·) else none
  | c :: r => if isSpecial c then none else (unescapeInner? r).map (c :: ·)

/-- Undoes the escapes of a string. -/
def unescapeString? : List Char → Option (List Char)
  | '\\' :: c :: r =>
    if c = '@' ∨ c = '?' then (unescapeInner? r).map (c :: ·) else unescapeInner? ('\\' :: c :: r)
  | cs => unescapeInner? cs

/-- What a character is written as, other than the first one. -/
def escapeInner (c : Char) : List Char :=
  if isSpecial c then ['\\', c] else if c = '\n' then ['\\', 'n'] else [c]

theorem toList_escapeString (s : String) :
    (escapeString s).toList =
      match s.toList with
      | [] => []
      | c :: r => (if c = '@' ∨ c = '?' then ['\\', c] else escapeInner c) ++
          r.flatMap escapeInner := by
  have hinner : escapeInner = fun c ↦
      if c = '\\' ∨ c = '\'' ∨ c = '"' then ['\\', c]
      else if c = '\n' then ['\\', 'n'] else [c] := by
    funext c
    simp [escapeInner, isSpecial, or_assoc]
  rw [escapeString, hinner]
  cases s.toList with
  | nil => rfl
  | cons c r => exact String.toList_ofList

theorem unescapeInner?_cons {c : Char} (hc : isSpecial c = false) (r : List Char) :
    unescapeInner? (c :: r) = (unescapeInner? r).map (c :: ·) := by
  rw [unescapeInner?.eq_def]
  split <;> simp_all [isSpecial]

theorem unescapeInner?_escapeInner (c : Char) (r : List Char) :
    unescapeInner? (escapeInner c ++ r) = (unescapeInner? r).map (c :: ·) := by
  unfold escapeInner
  split
  · next hc =>
    -- no special character is the letter of a line end
    have hn : c ≠ 'n' := by rintro rfl; exact absurd hc (by decide)
    show unescapeInner? ('\\' :: c :: r) = _
    rw [unescapeInner?, if_pos hc]
    exact fun h ↦ hn h
  split
  · subst c; rfl
  · exact unescapeInner?_cons (Bool.not_eq_true _ ▸ ‹_›) r

theorem unescapeInner?_flatMap (cs : List Char) :
    unescapeInner? (cs.flatMap escapeInner) = some cs := by
  induction cs with
  | nil => rfl
  | cons c r ih => rw [List.flatMap_cons, unescapeInner?_escapeInner, ih, Option.map_some]

/-- Only a mark of a reference in front is written with a backslash that is nowhere else. -/
theorem unescapeString?_escapeInner {c : Char} (hc : ¬(c = '@' ∨ c = '?')) (r : List Char) :
    unescapeString? (escapeInner c ++ r) = unescapeInner? (escapeInner c ++ r) := by
  unfold escapeInner
  split
  · rw [unescapeString?.eq_def]
    split <;> simp_all
  split
  · rfl
  · rw [unescapeString?.eq_def]
    split <;> simp_all [isSpecial]

/-- **Every string is read as it was written.** -/
theorem unescapeString?_escapeString (s : String) :
    unescapeString? (escapeString s).toList = some s.toList := by
  rw [toList_escapeString]
  cases s.toList with
  | nil => rfl
  | cons c r =>
    show unescapeString? ((if c = '@' ∨ c = '?' then ['\\', c] else escapeInner c) ++
      r.flatMap escapeInner) = _
    split
    · next hc =>
      show unescapeString? ('\\' :: c :: r.flatMap escapeInner) = _
      rw [unescapeString?, if_pos hc, unescapeInner?_flatMap, Option.map_some]
    · next hc =>
      rw [unescapeString?_escapeInner hc, ← List.flatMap_cons, unescapeInner?_flatMap]

/-! ### Texts without escapes -/

/-- A text that reads as another one: as itself without any special character, or as a shorter
one. -/
def ReadsAs (cs ds : List Char) : Prop :=
  (∀ c ∈ cs, isSpecial c = false) ∧ ds = cs ∨ ds.length < cs.length

theorem ReadsAs.length_le {cs ds : List Char} (h : ReadsAs cs ds) : ds.length ≤ cs.length := by
  rcases h with ⟨-, rfl⟩ | h
  · exact Nat.le_refl _
  · exact Nat.le_of_lt h

/-- A backslash and what is after it are read as one character. -/
theorem ReadsAs.escaped {cs ds : List Char} (h : ReadsAs cs ds) (c d : Char) :
    ReadsAs ('\\' :: c :: cs) (d :: ds) := by
  have := h.length_le
  exact .inr (by simp only [List.length_cons]; omega)

theorem ReadsAs.cons {cs ds : List Char} (h : ReadsAs cs ds) {c : Char}
    (hc : isSpecial c = false) : ReadsAs (c :: cs) (c :: ds) := by
  rcases h with ⟨hall, rfl⟩ | h
  · exact .inl ⟨List.forall_mem_cons.2 ⟨hc, hall⟩, rfl⟩
  · exact .inr (Nat.succ_lt_succ h)

theorem readsAs_unescapeInner? {cs ds : List Char} (h : unescapeInner? cs = some ds) :
    ReadsAs cs ds := by
  induction cs using unescapeInner?.induct generalizing ds with
  | case1 =>
    obtain rfl := Option.some.inj h
    exact .inl ⟨by simp, rfl⟩
  | case2 r ih =>
    obtain ⟨ds, hds, rfl⟩ := Option.map_eq_some_iff.1 h
    exact (ih hds).escaped _ _
  | case3 c r hn hc ih =>
    rw [unescapeInner?, if_pos hc] at h
    · obtain ⟨ds, hds, rfl⟩ := Option.map_eq_some_iff.1 h
      exact (ih hds).escaped _ _
    · exact hn
  | case4 c r hn hc =>
    rw [unescapeInner?, if_neg hc] at h
    · exact absurd h (by simp)
    · exact hn
  | case5 c r hn hn' hc =>
    rw [unescapeInner?, if_pos hc] at h
    · exact absurd h (by simp)
    · exact hn
    · exact hn'
  | case6 c r hn hn' hc ih =>
    rw [unescapeInner?_cons (Bool.not_eq_true _ ▸ hc)] at h
    obtain ⟨ds, hds, rfl⟩ := Option.map_eq_some_iff.1 h
    exact (ih hds).cons (Bool.not_eq_true _ ▸ hc)

theorem readsAs_unescapeString? {cs ds : List Char} (h : unescapeString? cs = some ds) :
    ReadsAs cs ds := by
  rw [unescapeString?.eq_def] at h
  split at h
  · split at h
    · obtain ⟨ds, hds, rfl⟩ := Option.map_eq_some_iff.1 h
      exact (readsAs_unescapeInner? hds).escaped _ _
    · exact readsAs_unescapeInner? h
  · exact readsAs_unescapeInner? h

theorem unescapeInner?_of_plain {cs : List Char} (h : ∀ c ∈ cs, isSpecial c = false) :
    unescapeInner? cs = some cs := by
  induction cs with
  | nil => rfl
  | cons c r ih =>
    obtain ⟨hc, hr⟩ := List.forall_mem_cons.1 h
    rw [unescapeInner?_cons hc, ih hr, Option.map_some]

/-- **A text is read as itself exactly if it has no quote and no backslash.** -/
theorem unescapeString?_eq_self_iff (cs : List Char) :
    unescapeString? cs = some cs ↔ ∀ c ∈ cs, isSpecial c = false := by
  constructor
  · intro h
    rcases readsAs_unescapeString? h with ⟨hall, -⟩ | hlt
    · exact hall
    · exact absurd hlt (Nat.lt_irrefl _)
  · intro h
    rw [unescapeString?.eq_def]
    split
    · exact absurd (h '\\' List.mem_cons_self) (by decide)
    · exact unescapeInner?_of_plain h

/-! ### Elements with text -/

/-- The elements of a tag, of each its attributes and the text between its tags. There must be
nothing else between them. -/
def textsOf? (tag : String) : List Xml.Event → Option (List (List (String × String) × String))
  | [] => some []
  | .start tag' attributes text :: rest =>
    if tag' = tag then
      if rest.head? = some (.stop tag) then (textsOf? tag rest).map ((attributes, text) :: ·)
      else none
    else textsOf? tag rest
  | _ :: rest => textsOf? tag rest

/-- The elements of a tag, of each its attributes and the tags from its start to its end. -/
def insidesOf (tag : String) : List Xml.Event → List (List (String × String) × List Xml.Event)
  | [] => []
  | .start tag' attributes _ :: rest =>
    if tag' = tag then
      (attributes, rest.takeWhile (· != .stop tag)) :: insidesOf tag rest
    else insidesOf tag rest
  | _ :: rest => insidesOf tag rest

/-- Reads a file of strings, and the value of each from the text between its tags. -/
def readStrings? (value? : List Char → Option (List Char)) (text : String) :
    Option (List (String × String)) := do
  let events ← Xml.read? text
  let texts ← textsOf? "string" events
  texts.mapM fun (attributes, text) ↦ do
    let name ← attributes.lookup "name"
    let value ← value? text.toList
    some (name, String.ofList value)

/-- Reads a file of arrays, and each item from the text between its tags. -/
def readArrays? (value? : List Char → Option (List Char)) (text : String) :
    Option (List (String × List String)) := do
  let events ← Xml.read? text
  (insidesOf "string-array" events).mapM fun (attributes, inside) ↦ do
    let name ← attributes.lookup "name"
    let texts ← textsOf? "item" inside
    let items ← texts.mapM fun (_, text) ↦ (value? text.toList).map String.ofList
    some (name, items)

/-- Reads a file of a table. A table without a file is empty. -/
def readFile? {A : Type} (t : ResourceTables) (file : String)
    (read? : String → Option (List A)) : Option (List A) :=
  match t.valueFiles.lookup file with
  | none => some []
  | some text => read? text

/-- Elements with text are found, each with its own. -/
theorem textsOf?_texts {A : Type} (tag : String) (attributes : A → List (String × String))
    (text : A → String) (depth : Nat) (l : List A) (after : List Xml.Event)
    (hafter : textsOf? tag after = some []) :
    textsOf? tag (Xml.eventsOfAll depth (l.map fun a ↦ .text tag (attributes a) (text a)) ++
      after) = some (l.map fun a ↦ (attributes a, text a)) := by
  induction l with
  | nil => exact hafter
  | cons a l ih =>
    show textsOf? tag (.start tag (attributes a) (text a) :: .stop tag ::
      (Xml.eventsOfAll depth (l.map fun a ↦ .text tag (attributes a) (text a)) ++ after)) = _
    rw [textsOf?, if_pos rfl, List.head?_cons, if_pos rfl, textsOf?, ih]
    · rfl
    · simp

/-- The tags of elements with text are their start tags and their end tags. -/
theorem mem_eventsOfAll_texts {A : Type} {tag : String} {attributes : A → List (String × String)}
    {text : A → String} {depth : Nat} {l : List A} {e : Xml.Event}
    (he : e ∈ Xml.eventsOfAll depth (l.map fun a ↦ .text tag (attributes a) (text a))) :
    (∃ a ∈ l, e = .start tag (attributes a) (text a)) ∨ e = .stop tag := by
  induction l with
  | nil => exact absurd he List.not_mem_nil
  | cons a l ih =>
    rcases List.mem_append.1 he with he | he
    · rcases List.mem_cons.1 he with rfl | he
      · exact .inl ⟨a, List.mem_cons_self, rfl⟩
      · exact .inr (List.mem_singleton.1 he)
    · rcases ih he with ⟨b, hb, rfl⟩ | rfl
      · exact .inl ⟨b, List.mem_cons_of_mem _ hb, rfl⟩
      · exact .inr rfl

/-- Neither the start nor the end of an element of a tag. -/
def IsOther (tag : String) (e : Xml.Event) : Prop :=
  e ≠ .stop tag ∧ ∀ attributes text, e ≠ .start tag attributes text

/-- Tags of other elements are passed over. -/
theorem insidesOf_append {tag : String} {events : List Xml.Event}
    (h : ∀ e ∈ events, IsOther tag e) (after : List Xml.Event) :
    insidesOf tag (events ++ after) = insidesOf tag after := by
  induction events with
  | nil => rfl
  | cons e events ih =>
    obtain ⟨⟨-, he⟩, hevents⟩ := List.forall_mem_cons.1 h
    rw [List.cons_append, ← ih hevents]
    cases e with
    | start tag' attributes text =>
      have hne : tag' ≠ tag := fun heq ↦ he attributes text (heq ▸ rfl)
      rw [insidesOf, if_neg hne]
    | _ => rfl

/-- **Elements with others inside** are found, and each with those that are inside it. -/
theorem insidesOf_nested {A : Type} {tag : String} (attributes : A → List (String × String))
    (children : A → List Xml.Element) (depth : Nat) (l : List A)
    (hchildren : ∀ a ∈ l, ∀ e ∈ Xml.eventsOfAll (depth + 1) (children a), IsOther tag e)
    (after : List Xml.Event) (hafter : insidesOf tag after = []) :
    insidesOf tag (Xml.eventsOfAll depth (l.map fun a ↦ .nested tag (attributes a) (children a)) ++
        after) =
      l.map fun a ↦ (attributes a, Xml.eventsOfAll (depth + 1) (children a)) := by
  induction l with
  | nil => exact hafter
  | cons a l ih =>
    obtain ⟨ha, hl⟩ := List.forall_mem_cons.1 hchildren
    have hothers : ∀ e ∈ Xml.eventsOfAll (depth + 1) (children a), (e != .stop tag) = true :=
      fun e he ↦ bne_iff_ne.2 (ha e he).1
    rw [List.map_cons, Xml.eventsOfAll, Xml.Element.events, List.append_assoc, List.cons_append,
      insidesOf, if_pos rfl, List.append_assoc, List.takeWhile_append_of_pos hothers,
      insidesOf_append ha, List.singleton_append, insidesOf, ih hl]
    · simp
    · simp

/-! ### The files -/

/-- What a file of resources is read as. -/
theorem read?_resources {children : List Xml.Element} (h : Xml.AllNamed children) :
    ∃ blank, Xml.read? (resources children) =
      some (.declaration :: .start "resources" [] blank ::
        (Xml.eventsOfAll 1 children ++ [.stop "resources"])) :=
  have hnamed : (Xml.Element.nested "resources" [] children).IsNamed := ⟨by decide, by simp, h⟩
  ⟨_, Xml.read?_document hnamed⟩

/-- Reading each entry of a list as it is. -/
theorem mapM_eq_some_self_iff {A : Type} {read? : A → Option A} {l : List A} :
    l.mapM read? = some l ↔ ∀ a ∈ l, read? a = some a := by
  induction l with
  | nil => simp
  | cons a l ih =>
    rw [List.mapM_cons, List.forall_mem_cons, ← ih]
    cases read? a <;> cases l.mapM read? <;> simp

/-- **A file of strings** holds an entry for each element, whatever is written as its text. -/
theorem readStrings?_resources (value? : List Char → Option (List Char)) (write : String → String)
    {more : List (String × String)} (hmore : ∀ a ∈ more, Xml.IsName a.1)
    (entries : List (String × String)) :
    readStrings? value? (resources (entries.map fun e ↦
        .text "string" (("name", e.1) :: more) (write e.2))) =
      entries.mapM fun e ↦ (value? (write e.2).toList).map fun value ↦
        (e.1, String.ofList value) := by
  have hnamed : ∀ e ∈ entries, (Xml.Element.text "string" (("name", e.1) :: more)
      (write e.2)).IsNamed :=
    fun e _ ↦ ⟨by decide, List.forall_mem_cons.2 ⟨(by decide : Xml.IsName "name"), hmore⟩⟩
  obtain ⟨blank, hread⟩ := read?_resources (Xml.allNamed_map hnamed)
  have htexts := textsOf?_texts "string" (fun e : String × String ↦ ("name", e.1) :: more)
    (fun e ↦ write e.2) 1 entries [.stop "resources"] rfl
  rw [readStrings?, hread]
  show (textsOf? "string" (Xml.eventsOfAll 1 _ ++ [.stop "resources"])).bind _ = _
  rw [htexts, Option.bind_some, List.mapM_map]
  refine congrArg (List.mapM · entries) (funext fun e ↦ ?_)
  show (value? (write e.2).toList).bind _ = _
  rw [Option.map_eq_bind]
  rfl

/-- **A file of arrays** holds an entry for each array, whatever is written as its items. -/
theorem readArrays?_resources (value? : List Char → Option (List Char)) (write : String → String)
    (entries : List (String × List String)) :
    readArrays? value? (resources (entries.map fun e ↦
        .nested "string-array" [("name", e.1)]
          (e.2.map fun item ↦ .text "item" [] (write item)))) =
      entries.mapM fun e ↦ (e.2.mapM fun item ↦
        (value? (write item).toList).map String.ofList).map fun items ↦ (e.1, items) := by
  have hitem : ∀ item, (Xml.Element.text "item" [] (write item)).IsNamed :=
    fun _ ↦ ⟨by decide, by simp⟩
  have hnamed : ∀ e ∈ entries, (Xml.Element.nested "string-array" [("name", e.1)]
      (e.2.map fun item ↦ .text "item" [] (write item))).IsNamed :=
    fun e _ ↦ ⟨by decide, List.forall_mem_singleton.2 (by decide : Xml.IsName "name"),
      Xml.allNamed_map fun item _ ↦ hitem item⟩
  obtain ⟨blank, hread⟩ := read?_resources (Xml.allNamed_map hnamed)
  have hothers : ∀ e ∈ entries, ∀ event ∈ Xml.eventsOfAll 2
      (e.2.map fun item ↦ .text "item" [] (write item)), IsOther "string-array" event := by
    intro e _ event hevent
    rcases mem_eventsOfAll_texts hevent with ⟨item, -, rfl⟩ | rfl
    · exact ⟨by simp, by simp⟩
    · exact ⟨by decide, by simp⟩
  have hinsides := insidesOf_nested (fun e : String × List String ↦ [("name", e.1)])
    (fun e ↦ e.2.map fun item ↦ .text "item" [] (write item)) 1 entries hothers
    [.stop "resources"] rfl
  rw [readArrays?, hread]
  show (insidesOf "string-array" (Xml.eventsOfAll 1 _ ++ [.stop "resources"])).mapM _ = _
  rw [hinsides, List.mapM_map]
  refine congrArg (List.mapM · entries) (funext fun e ↦ ?_)
  have htexts := textsOf?_texts "item" (fun _ ↦ []) write 2 e.2 [] rfl
  rw [List.append_nil] at htexts
  show (textsOf? "item" (Xml.eventsOfAll 2 _)).bind _ = _
  rw [htexts, Option.bind_some, List.mapM_map, Option.map_eq_bind]
  rfl

theorem lookup_ite (present : Bool) (name content file : String) :
    (if present then [(name, content)] else []).lookup file =
      if present && file == name then some content else none := by
  cases present <;> cases h : file == name <;> simp [List.lookup_cons, h]

theorem lookup_strings (t : ResourceTables) :
    t.valueFiles.lookup "strings.xml" =
      if t.strings.isEmpty then none else some t.stringsXml := by
  simp only [valueFiles, List.lookup_append, lookup_ite]
  simp

theorem lookup_arrays (t : ResourceTables) :
    t.valueFiles.lookup "arrays.xml" =
      if t.arrays.isEmpty then none else some t.arraysXml := by
  simp only [valueFiles, List.lookup_append, lookup_ite]
  simp

theorem lookup_fonts (t : ResourceTables) :
    t.valueFiles.lookup "fonts.xml" =
      if t.fonts.isEmpty then none
      else some (simple "string" [("translatable", "false")] t.fonts) := by
  simp only [valueFiles, List.lookup_append, lookup_ite]
  simp

/-- **A table is read back** exactly if each of its entries is. -/
theorem readFile?_eq_some_iff {A : Type} {t : ResourceTables} {file content : String}
    {entries : List A} {read? : String → Option (List A)} {readOne? : A → Option A}
    (hlookup : t.valueFiles.lookup file = if entries.isEmpty then none else some content)
    (hread : read? content = entries.mapM readOne?) :
    t.readFile? file read? = some entries ↔ ∀ e ∈ entries, readOne? e = some e := by
  rw [← mapM_eq_some_self_iff, ← hread, readFile?, hlookup]
  cases entries with
  | nil => rw [hread]; rfl
  | cons e l => rfl

/-- **Strings and arrays are read as they were stored**, with their names and in their order,
whatever texts they are: undoing the entities and then the escapes of what is between the tags gives
back the tables. No text has the start of a tag in it once it is written. -/
theorem strings_read (t : ResourceTables) :
    t.readFile? "strings.xml" (readStrings? unescapeString?) = some t.strings ∧
      t.readFile? "arrays.xml" (readArrays? unescapeString?) = some t.arrays ∧
      ∀ text, '<' ∉ (Xml.escape (escapeString text)).toList := by
  refine ⟨?_, ?_, fun text ↦ Xml.not_mem_escape (by decide) _⟩
  · rw [readFile?_eq_some_iff t.lookup_strings
      (readStrings?_resources unescapeString? escapeString (by simp) t.strings)]
    intro e _
    rw [unescapeString?_escapeString, Option.map_some, String.ofList_toList]
  · rw [readFile?_eq_some_iff t.lookup_arrays
      (readArrays?_resources unescapeString? escapeString t.arrays)]
    intro e _
    have hitems : (e.2.mapM fun item ↦
        (unescapeString? (escapeString item).toList).map String.ofList) = some e.2 := by
      rw [mapM_eq_some_self_iff]
      intro item _
      rw [unescapeString?_escapeString, Option.map_some, String.ofList_toList]
    rw [hitems, Option.map_some]

/-- **Font families are written without escapes.** Between the tags of their file is what was
stored. The platform reads all of it back only if no family has a quote or a backslash in it. -/
theorem fonts_read_iff (t : ResourceTables) :
    t.readFile? "fonts.xml" (readStrings? some) = some t.fonts ∧
      (t.readFile? "fonts.xml" (readStrings? unescapeString?) = some t.fonts ↔
        ∀ font ∈ t.fonts, ∀ c ∈ font.2.toList, isSpecial c = false) := by
  have hmore : ∀ a ∈ [("translatable", "false")], Xml.IsName a.1 := by decide
  constructor
  · rw [readFile?_eq_some_iff t.lookup_fonts (readStrings?_resources some id hmore t.fonts)]
    intro e _
    rw [Option.map_some, id, String.ofList_toList]
  · rw [readFile?_eq_some_iff t.lookup_fonts
      (readStrings?_resources unescapeString? id hmore t.fonts)]
    refine forall₂_congr fun font _ ↦ ?_
    rw [← unescapeString?_eq_self_iff, id, Option.map_eq_some_iff]
    constructor
    · rintro ⟨cs, hcs, h⟩
      rw [hcs, ← (Prod.mk.inj h).2, String.toList_ofList]
    · exact fun h ↦ ⟨_, h, by rw [String.ofList_toList]⟩

/-- A style reports families of all kinds. -/
example : (Style.empty.set "font-family" "O'Reilly, serif").fontFamily = some "O'Reilly" := by
  decide

end ResourceTables

end ViewCompiler
