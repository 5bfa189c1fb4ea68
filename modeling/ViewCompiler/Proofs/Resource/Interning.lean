import Mathlib.Data.List.Nodup
import ViewCompiler.Proofs.Resource.FreeName
import ViewCompiler.Resource.Store

/-!
# Stored values are told apart by their names

A store is asked for the names of values again and again, and every request finds the entry of its
key or makes one. `ValueStore.Request` are the six kinds of requests, each with the key that it is
looked up by, and `ValueStore.answerAll` answers a list of them.

The main statement is `ValueStore.names_by_key`: over a whole history of requests, two requests of
one kind get the same name exactly if they have the same key. Nothing is assumed of the slugs that
names are made from, so that any two values may ask for the same name; a name is only given to a
new entry if it is free.

## Shape decisions

* A table is seen through `ValueStore.table`, by the kind of request that is answered from it. All
  six operations are then one: a request to its table (`ValueStore.answer_eq_fresh`), which leaves
  the other tables alone (`ValueStore.table_answer_of_ne`).
* Strings and fonts share their names, so what is taken for either is `ValueStore.stringNames`, and
  the invariant `ValueStore.Kept` is about these names as well as about those of each table.
-/

namespace ViewCompiler

/-! ### Requests to a table -/

namespace Table

variable {V : Type}

def keys (t : Table V) : List String := t.entries.map Entry.key

theorem name?_eq_none_iff {t : Table V} {key : String} : t.name? key = none ↔ key ∉ t.keys := by
  simp [name?, keys]

theorem mem_of_name? {t : Table V} {key name : String} (h : t.name? key = some name) :
    ∃ e ∈ t.entries, e.key = key ∧ e.name = name := by
  obtain ⟨e, he, rfl⟩ := Option.map_eq_some_iff.1 h
  exact ⟨e, List.mem_of_find?_eq_some he, by simpa using List.find?_some he, rfl⟩

/-- Entries that are added behind the others hide none of them. -/
theorem name?_of_prefix {t t' : Table V} (h : t.entries <+: t'.entries) {key name : String}
    (hname : t.name? key = some name) : t'.name? key = some name := by
  obtain ⟨e, he, rfl⟩ := Option.map_eq_some_iff.1 hname
  rw [name?, h.find?_eq_some he, Option.map_some]

/-- Where names differ, a name belongs to one key. -/
theorem key_eq_of_name {t : Table V} (hnodup : t.names.Nodup) {key key' name : String}
    (h : t.name? key = some name) (h' : t.name? key' = some name) : key = key' := by
  obtain ⟨e, he, rfl, rfl⟩ := mem_of_name? h
  obtain ⟨e', he', rfl, hname⟩ := mem_of_name? h'
  rw [List.inj_on_of_nodup_map hnodup he' he hname]

variable (t : Table V) (key fresh : String) (value : V)

/-- **A request finds an entry or makes one.** -/
theorem request_cases :
    (∃ name, t.name? key = some name ∧ t.request key fresh value = (name, t)) ∨
      key ∉ t.keys ∧
        t.request key fresh value = (fresh, ⟨t.entries ++ [⟨key, fresh, value⟩]⟩) := by
  cases h : t.name? key with
  | some name => exact .inl ⟨name, rfl, by rw [request, h]⟩
  | none => exact .inr ⟨name?_eq_none_iff.1 h, by rw [request, h]⟩

theorem entries_prefix_request : t.entries <+: (t.request key fresh value).2.entries := by
  rcases t.request_cases key fresh value with ⟨name, -, hok⟩ | ⟨-, hok⟩
  · exact hok ▸ List.prefix_refl _
  · exact hok ▸ List.prefix_append _ _

/-- The answer is what is found from now on. -/
theorem name?_request :
    (t.request key fresh value).2.name? key = some (t.request key fresh value).1 := by
  rcases t.request_cases key fresh value with ⟨name, hname, hok⟩ | ⟨hnew, hok⟩
  · rw [hok]
    exact hname
  · have hnone := name?_eq_none_iff.2 hnew
    rw [name?, Option.map_eq_none_iff] at hnone
    rw [hok, name?, List.find?_append, hnone]
    simp

/-- There is one entry for each key, in the order of the first requests. -/
theorem keys_request {history : List String} (h : t.keys = history.eraseDups) :
    (t.request key fresh value).2.keys = (history ++ [key]).eraseDups := by
  rw [List.eraseDups_append, ← h]
  rcases t.request_cases key fresh value with ⟨name, hname, hok⟩ | ⟨hnew, hok⟩
  · have hmem : key ∈ history := by
      rw [← List.mem_eraseDups, ← h]
      exact not_not.1 fun hnot ↦ by simp [name?_eq_none_iff.2 hnot] at hname
    rw [hok]
    simp [List.removeAll, hmem]
  · have hmem : key ∉ history := by
      rwa [← List.mem_eraseDups, ← h]
    rw [hok]
    simp [List.removeAll, hmem, keys, List.eraseDups_cons]

/-- A name that is free for a new entry keeps names different. -/
theorem nodup_names_request (others : List String) (hfree : fresh ∉ others ++ t.names)
    (hnodup : (others ++ t.names).Nodup) :
    (others ++ (t.request key fresh value).2.names).Nodup := by
  rcases t.request_cases key fresh value with ⟨name, -, hok⟩ | ⟨-, hok⟩
  · rw [hok]
    exact hnodup
  · have hnames : (t.request key fresh value).2.names = t.names ++ [fresh] := by
      rw [hok]
      simp [names]
    rw [hnames, ← List.append_assoc]
    refine hnodup.append (List.nodup_singleton _) fun name hname hfresh ↦ ?_
    exact hfree (List.mem_singleton.1 hfresh ▸ hname)

end Table

namespace Name

/-- **A claimed name is free.** -/
theorem claim_not_mem (taken : List String) (base : String) (suffix : Bool) :
    claim taken base suffix ∉ taken := by
  rw [claim]
  split
  · rename_i h
    simpa using (Bool.and_eq_true_iff.1 h).2
  · exact firstFree_not_mem (suffixed_injective base) taken 1

end Name

namespace ValueStore

/-! ### Requests to a store -/

/-- The kinds of stored values. -/
inductive Kind where
  | string
  | array
  | color
  | font
  | dimension
  | drawable
  deriving DecidableEq

/-- What is stored of a value of each kind. -/
def Kind.Value : Kind → Type
  | string => String
  | array => List String
  | color => Color
  | font => String
  | dimension => String
  | drawable => Drawable

/-- The table of each kind of values. -/
def table (s : ValueStore) : (k : Kind) → Table k.Value
  | .string => s.strings
  | .array => s.arrays
  | .color => s.colors
  | .font => s.fonts
  | .dimension => s.dimensions
  | .drawable => s.drawables

/-- A request for the name of a value. -/
inductive Request where
  | string (text : String)
  | array (hint : String) (items : List String)
  | color (c : Color)
  | font (family : String)
  | dimension (x : Scalar) (unit : DimenUnit)
  | drawable (d : Drawable)

namespace Request

def kind : Request → Kind
  | string _ => .string
  | array _ _ => .array
  | color _ => .color
  | font _ => .font
  | dimension _ _ => .dimension
  | drawable _ => .drawable

/-- What tells requests of one kind apart: the text, the joined items, the hexadecimal form of the
color, the family in lower case without blanks around it, the length with its unit, or the key of
the drawable. -/
def key : Request → String
  | string text => text
  | array _ items => itemSeparator.intercalate items
  | color c => c.hex
  | font family => Text.lower (Text.trim family)
  | dimension x unit => x.text ++ unit.suffix
  | drawable d => d.key

/-- What is stored for a new entry. -/
def value : (r : Request) → r.kind.Value
  | string text => text
  | array _ items => items
  | color c => c
  | font family => Text.trim family
  | dimension x unit => x.text ++ unit.suffix
  | drawable d => d

end Request

/-- Answers a request with a name. -/
def answer (s : ValueStore) : Request → String × ValueStore
  | .string text => s.string text
  | .array hint items => s.stringArray hint items
  | .color c => s.color c
  | .font family => s.font family
  | .dimension x unit => s.dimension x unit
  | .drawable d => s.drawable d

/-- Answers requests one after another. -/
def answerAll (s : ValueStore) : List Request → List String × ValueStore
  | [] => ([], s)
  | r :: rs =>
    let (name, s) := s.answer r
    let (names, s) := s.answerAll rs
    (name :: names, s)

/-- The names that a new entry of a kind may not have: those in its table, and for strings and fonts
those in the table of the other kind too. -/
def taken (s : ValueStore) : Kind → List String
  | .string => s.stringNames
  | .font => s.stringNames
  | k => (s.table k).names

theorem names_subset_taken (s : ValueStore) (k : Kind) : (s.table k).names ⊆ s.taken k := by
  cases k with
  | string => exact List.subset_append_left _ _
  | font => exact List.subset_append_right _ _
  | _ => exact List.Subset.refl _

/-- What the name of a new entry is made from, and whether it gets a suffix anyway. -/
def base (s : ValueStore) : Request → String × Bool
  | .string text => (s.nameFor text "string", false)
  | .array hint _ => (s.nameFor (hint ++ " entries") "array", false)
  | .color c =>
    match s.palette.nearest? c with
    | some (name, reference) => (s.nameFor name "color", !reference.same c)
    | none => ("color", true)
  | .font family => (s.nameFor ("font " ++ Text.trim family) "font", false)
  | .dimension x unit => (dimensionName (x.text ++ unit.suffix), false)
  | .drawable d => (s.nameFor d.hint "drawable", false)

/-- The name of a new entry. -/
def fresh (s : ValueStore) (r : Request) : String :=
  Name.claim (s.taken r.kind) (s.base r).1 (s.base r).2

/-- **A request is one to its table**, with a name claimed for a new entry. -/
theorem answer_eq_fresh (s : ValueStore) (r : Request) :
    (s.answer r).1 = ((s.table r.kind).request r.key (s.fresh r) r.value).1 ∧
      (s.answer r).2.table r.kind = ((s.table r.kind).request r.key (s.fresh r) r.value).2 := by
  cases r with
  | color c =>
    -- with or without a palette color near it, the name is claimed in the table
    have hfresh : s.fresh (.color c) = match s.palette.nearest? c with
        | some (name, reference) =>
          Name.claim s.colors.names (s.nameFor name "color") (!reference.same c)
        | none => Name.claim s.colors.names "color" true := by
      rw [fresh, base]
      cases s.palette.nearest? c <;> rfl
    rw [hfresh]
    exact ⟨rfl, rfl⟩
  | _ => exact ⟨rfl, rfl⟩

/-- So it is one with a name that is not taken. -/
theorem answer_eq_request (s : ValueStore) (r : Request) {k : Kind} (hk : r.kind = k) :
    ∃ fresh value, fresh ∉ s.taken k ∧
      (s.answer r).1 = ((s.table k).request r.key fresh value).1 ∧
      (s.answer r).2.table k = ((s.table k).request r.key fresh value).2 := by
  subst hk
  exact ⟨s.fresh r, r.value, Name.claim_not_mem _ _ _, s.answer_eq_fresh r⟩

theorem table_answer_of_ne (s : ValueStore) (r : Request) {k : Kind} (hk : r.kind ≠ k) :
    (s.answer r).2.table k = s.table k := by
  cases r <;> cases k <;> first | rfl | exact absurd rfl hk

/-! ### Keys of drawables -/

end ValueStore

namespace Xml

/-- Every document starts with the declaration. -/
theorem declaration_prefix_document (root : Element) :
    declaration.toList <+: (document root).toList := by
  rw [document, String.toList_join, List.map_cons, List.flatMap_cons, String.toList_append,
    List.append_assoc]
  exact List.prefix_append _ _

end Xml

namespace Drawable

/-- The source of an image. -/
def source? : Drawable → Option String
  | image source => some source
  | _ => none

/-- **Two drawables have one key if they have one file, or are images of one source.** No file reads
like the key of an image. -/
theorem key_eq_key_iff {d d' : Drawable} :
    d.key = d'.key ↔ d.xml? = d'.xml? ∧ d.source? = d'.source? := by
  -- the key of a shape starts with the declaration, that of an image does not
  have hshape : ∀ (e : Xml.Element) (source : String),
      Xml.document e ≠ "image:" ++ source := by
    intro e source h
    obtain ⟨rest, hrest⟩ := Xml.declaration_prefix_document e
    rw [h, String.toList_append] at hrest
    have hhead := congrArg List.head? hrest
    rw [Xml.declaration] at hhead
    simp at hhead
  cases d with
  | image source =>
    cases d' with
    | image source' => simp [key, xml?, element?, source?, String.append_right_inj]
    | _ => simpa [key, xml?, element?, source?] using (hshape _ source).symm
  | _ =>
    cases d' with
    | image source => simpa [key, xml?, element?, source?] using hshape _ source
    | _ => simp [key, xml?, element?, source?]

end Drawable

namespace ValueStore

/-! ### Histories -/

/-- A store in which the entries of another one are still what they were, in front of others. -/
def Extends (s s' : ValueStore) : Prop := ∀ k, (s.table k).entries <+: (s'.table k).entries

namespace Extends

variable {s s' s'' : ValueStore}

theorem refl (s : ValueStore) : Extends s s := fun _ ↦ List.prefix_refl _

theorem trans (h : Extends s s') (h' : Extends s' s'') : Extends s s'' :=
  fun k ↦ (h k).trans (h' k)

theorem answer (s : ValueStore) (r : Request) : Extends s (s.answer r).2 := fun k ↦ by
  by_cases hk : r.kind = k
  · obtain ⟨fresh, value, -, -, htable⟩ := s.answer_eq_request r hk
    rw [htable]
    exact Table.entries_prefix_request _ _ _ _
  · exact s.table_answer_of_ne r hk ▸ List.prefix_refl _

theorem answerAll (s : ValueStore) (rs : List Request) : Extends s (s.answerAll rs).2 := by
  induction rs generalizing s with
  | nil => exact refl s
  | cons r rs ih => exact (answer s r).trans (ih _)

end Extends

theorem answerAll_append (s : ValueStore) (rs rs' : List Request) :
    (s.answerAll (rs ++ rs')).2 = ((s.answerAll rs).2.answerAll rs').2 := by
  induction rs generalizing s with
  | nil => rfl
  | cons r rs ih => exact ih _

theorem length_answerAll (s : ValueStore) (rs : List Request) :
    (s.answerAll rs).1.length = rs.length := by
  induction rs generalizing s with
  | nil => rfl
  | cons r rs ih => exact congrArg (· + 1) (ih _)

/-- **A name that has been answered is found from now on.** -/
theorem name?_of_mem_answers (s : ValueStore) (rs : List Request) :
    ∀ e ∈ rs.zip (s.answerAll rs).1,
      ((s.answerAll rs).2.table e.1.kind).name? e.1.key = some e.2 := by
  induction rs generalizing s with
  | nil => exact fun e he ↦ absurd he List.not_mem_nil
  | cons r rs ih =>
    intro e he
    rcases List.mem_cons.1 he with rfl | he
    · obtain ⟨fresh, value, -, hname, htable⟩ := s.answer_eq_request r rfl
      have hfound : ((s.answer r).2.table r.kind).name? r.key = some (s.answer r).1 := by
        rw [hname, htable]
        exact Table.name?_request _ _ _ _
      exact Table.name?_of_prefix (Extends.answerAll (s.answer r).2 rs r.kind) hfound
    · exact ih _ e he

/-- What a history of requests leaves in a store. -/
structure Kept (history : List Request) (s : ValueStore) : Prop where
  /-- There is one entry for each key, in the order of the first requests. -/
  keys : ∀ k, (s.table k).keys =
    ((history.filter fun r ↦ r.kind = k).map Request.key).eraseDups
  names : ∀ k, (s.table k).names.Nodup
  strings : s.stringNames.Nodup

namespace Kept

theorem new (slug : String → String) (config : NameConfig) (palette : Palette) :
    Kept [] (new slug config palette) where
  keys k := by cases k <;> rfl
  names k := by cases k <;> exact .nil
  strings := .nil

variable {history : List Request} {s : ValueStore}

/-- **One more request.** -/
theorem answer (h : Kept history s) (r : Request) : Kept (history ++ [r]) (s.answer r).2 where
  keys k := by
    rw [List.filter_append, List.map_append]
    by_cases hk : r.kind = k
    · obtain ⟨fresh, value, -, -, htable⟩ := s.answer_eq_request r hk
      rw [htable, Table.keys_request _ _ _ _ (h.keys k)]
      simp [hk]
    · rw [s.table_answer_of_ne r hk, h.keys]
      simp [hk]
  names k := by
    by_cases hk : r.kind = k
    · obtain ⟨fresh, value, hfree, -, htable⟩ := s.answer_eq_request r hk
      rw [htable]
      exact Table.nodup_names_request _ _ _ _ []
        (fun hmem ↦ hfree (s.names_subset_taken k hmem)) (h.names k)
    · rw [s.table_answer_of_ne r hk]
      exact h.names k
  strings := by
    -- a new string and a new font are both behind the names that were there before
    show (((s.answer r).2.table .string).names ++ ((s.answer r).2.table .font).names).Nodup
    by_cases hstring : r.kind = .string
    · obtain ⟨fresh, value, hfree, -, htable⟩ := s.answer_eq_request r hstring
      rw [htable, s.table_answer_of_ne r (k := .font) (by simp [hstring])]
      refine List.nodup_append_comm.1 (Table.nodup_names_request _ _ _ _ _ (fun hmem ↦ hfree ?_)
        (List.nodup_append_comm.1 h.strings))
      exact List.perm_append_comm.mem_iff.1 hmem
    · rw [s.table_answer_of_ne r hstring]
      by_cases hfont : r.kind = .font
      · obtain ⟨fresh, value, hfree, -, htable⟩ := s.answer_eq_request r hfont
        rw [htable]
        exact Table.nodup_names_request _ _ _ _ _ hfree h.strings
      · rw [s.table_answer_of_ne r hfont]
        exact h.strings

theorem answerAll (h : Kept history s) (rs : List Request) :
    Kept (history ++ rs) (s.answerAll rs).2 := by
  induction rs generalizing history s with
  | nil => rwa [List.append_nil]
  | cons r rs ih =>
    rw [List.append_cons]
    exact ih (h.answer r)

end Kept

/-! ### Values are told apart -/

/-- Names given to requests, and the store after them, tell values apart by their keys. -/
structure TellsApart (start : ValueStore) (calls : List Request) (names : List String)
    (s : ValueStore) : Prop where
  length : names.length = calls.length
  /-- Two requests to one table get the same name exactly if they have the same key. -/
  eq_iff : ∀ e ∈ calls.zip names, ∀ e' ∈ calls.zip names, e.1.kind = e'.1.kind →
    (e.2 = e'.2 ↔ e.1.key = e'.1.key)
  nodup : ∀ k, (s.table k).names.Nodup
  nodup_strings : (s.strings.names ++ s.fonts.names).Nodup
  /-- There is one entry for each key, in the order of the first requests. -/
  keys : ∀ k, (s.table k).keys = ((calls.filter fun r ↦ r.kind = k).map Request.key).eraseDups
  /-- The entry of a key has the name that was answered. -/
  found : ∀ e ∈ calls.zip names, (s.table e.1.kind).name? e.1.key = some e.2
  /-- What was in the store after some of the requests is in it after all of them. -/
  kept : ∀ before after, calls = before ++ after → Extends (start.answerAll before).2 s

/-- **A store names values by their keys**, whatever slugs its names are made from: over every
history of requests the same name is given exactly for the same key, names differ within each table
and between strings and fonts, and entries stay what they were. The key of a drawable stands for
its file, or for the source of an image. -/
theorem names_by_key (slug : String → String) (config : NameConfig) (palette : Palette)
    (calls : List Request) :
    TellsApart (new slug config palette) calls
        ((new slug config palette).answerAll calls).1
        ((new slug config palette).answerAll calls).2 ∧
      ∀ d d' : Drawable, (Request.drawable d).key = (Request.drawable d').key ↔
        d.xml? = d'.xml? ∧ d.source? = d'.source? := by
  have hkept : Kept ([] ++ calls) ((new slug config palette).answerAll calls).2 :=
    (Kept.new slug config palette).answerAll calls
  rw [List.nil_append] at hkept
  have hfound := name?_of_mem_answers (new slug config palette) calls
  refine ⟨?_, fun d d' ↦ Drawable.key_eq_key_iff⟩
  refine { length := length_answerAll _ _, eq_iff := ?_, nodup := hkept.names,
           nodup_strings := hkept.strings, keys := hkept.keys, found := hfound, kept := ?_ }
  · intro e he e' he' hkind
    have hname := hfound e he
    have hname' := hfound e' he'
    rw [← hkind] at hname'
    constructor
    · intro heq
      rw [← heq] at hname'
      exact Table.key_eq_of_name (hkept.names _) hname hname'
    · intro heq
      rw [← heq, hname] at hname'
      exact Option.some.inj hname'
  · intro before after hsplit
    rw [hsplit, answerAll_append]
    exact Extends.answerAll _ after

end ValueStore

end ViewCompiler
