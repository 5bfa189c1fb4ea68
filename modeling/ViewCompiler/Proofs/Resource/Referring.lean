import ViewCompiler.Proofs.Resource.Interning
import ViewCompiler.Proofs.SortedMap
import ViewCompiler.Resource.Reference

/-!
# What attributes say

An attribute is a text as it is, or a value that is stored and referred to by its name. Storing goes
on after the attribute has got its text, so what a text says is put as a relation to a store,
`ValueStore.Says`: it is about the store at the end as well as about the one that the value has been
put into, since entries stay what they were (`ValueStore.Says.extends`).

The attributes of one node are requests to the store, one after another
(`ValueStore.referAll_eq_answerAll`), and each text says its attribute (`ValueStore.says_referAll`).
-/

namespace ViewCompiler

/-- The request for a value; there is none for a text as it is. -/
def AttributeValue.request? : AttributeValue → Option ValueStore.Request
  | plain _ => none
  | string text => some (.string text)
  | array hint items => some (.array hint items)
  | color c => some (.color c)
  | font family => some (.font family)
  | dimension x unit => some (.dimension x unit)
  | drawable d => some (.drawable d)

namespace ValueStore

/-- What references lead to. -/
inductive ResourceKind where
  | string
  | array
  | color
  | dimension
  | drawable
  | style
  deriving DecidableEq

/-- The word in a reference. -/
def ResourceKind.word : ResourceKind → String
  | string => "string"
  | array => "array"
  | color => "color"
  | dimension => "dimen"
  | drawable => "drawable"
  | style => "style"

/-- Strings and fonts are referred to alike. -/
def Kind.resource : Kind → ResourceKind
  | string => .string
  | array => .array
  | color => .color
  | font => .string
  | dimension => .dimension
  | drawable => .drawable

/-- **A reference can be read**: it gives away its word and its name. -/
theorem reference_inj {word word' name name' : String} (hword : '/' ∉ word.toList)
    (hword' : '/' ∉ word'.toList) (h : reference word name = reference word' name') :
    word = word' ∧ name = name' := by
  have hsplit : ∀ {l : List Char} (r : List Char), '/' ∉ l →
      (l ++ '/' :: r).takeWhile (fun c ↦ c ≠ '/') = l := fun {l} r hl ↦ by
    have hne : ∀ c ∈ l, decide (c ≠ '/') = true := fun c hc ↦
      decide_eq_true fun heq ↦ hl (heq ▸ hc)
    rw [List.takeWhile_append_of_pos hne]
    simp
  have hlists := congrArg String.toList h
  simp only [reference, String.toList_append, List.append_assoc] at hlists
  have hrest : word.toList ++ '/' :: name.toList = word'.toList ++ '/' :: name'.toList :=
    List.append_cancel_left hlists
  have hfirst := congrArg (List.takeWhile fun c ↦ c ≠ '/') hrest
  rw [hsplit _ hword, hsplit _ hword'] at hfirst
  obtain rfl := String.toList_injective hfirst
  exact ⟨rfl, String.toList_injective (List.cons.inj (List.append_cancel_left hrest)).2⟩

theorem ResourceKind.not_mem_word (k : ResourceKind) : '/' ∉ k.word.toList := by
  cases k <;> decide

theorem ResourceKind.word_injective : Function.Injective word := fun k k' h ↦ by
  cases k <;> cases k' <;> simp_all [word]

/-- A text is what an attribute says in a store: itself, or a reference to the value by its name. -/
inductive Says (s : ValueStore) : AttributeValue → String → Prop
  | plain (text : String) : Says s (.plain text) text
  | stored {v : AttributeValue} {r : Request} {name : String} (request : v.request? = some r)
      (named : (s.table r.kind).name? r.key = some name) :
    Says s v (reference r.kind.resource.word name)

/-- **What an attribute says stays the same** as more values are stored. -/
theorem Says.extends {s s' : ValueStore} {v : AttributeValue} {text : String}
    (h : s.Says v text) (hext : Extends s s') : s'.Says v text := by
  cases h with
  | plain => exact .plain text
  | stored request named => exact .stored request (Table.name?_of_prefix (hext _) named)

theorem Says.unique {s : ValueStore} {v : AttributeValue} {text text' : String}
    (h : s.Says v text) (h' : s.Says v text') : text = text' := by
  cases h with
  | plain =>
    cases h' with
    | plain => rfl
    | stored request => exact absurd request (by simp [AttributeValue.request?])
  | stored request named =>
    cases h' with
    | plain => exact absurd request (by simp [AttributeValue.request?])
    | stored request' named' =>
      obtain rfl := Option.some.inj (request.symm.trans request')
      rw [Option.some.inj (named.symm.trans named')]

/-- A reference is made by storing the value. -/
theorem refer_of_request {v : AttributeValue} {r : Request} (h : v.request? = some r)
    (s : ValueStore) :
    s.refer v = (reference r.kind.resource.word (s.answer r).1, (s.answer r).2) := by
  cases v with
  | plain text => exact absurd h (by simp [AttributeValue.request?])
  | _ =>
    obtain rfl := Option.some.inj h
    rfl

theorem refer_of_plain {v : AttributeValue} (h : v.request? = none) (s : ValueStore) :
    ∃ text, v = .plain text ∧ s.refer v = (text, s) := by
  cases v with
  | plain text => exact ⟨text, rfl, rfl⟩
  | _ => exact absurd h (by simp [AttributeValue.request?])

theorem name?_answer (s : ValueStore) (r : Request) :
    ((s.answer r).2.table r.kind).name? r.key = some (s.answer r).1 :=
  s.name?_of_mem_answers [r] (r, (s.answer r).1) List.mem_cons_self

theorem says_refer (s : ValueStore) (v : AttributeValue) :
    (s.refer v).2.Says v (s.refer v).1 := by
  cases h : v.request? with
  | none =>
    obtain ⟨text, rfl, hrefer⟩ := refer_of_plain h s
    rw [hrefer]
    exact .plain text
  | some r =>
    rw [refer_of_request h]
    exact .stored h (s.name?_answer r)

/-- The requests for the values of some attributes. -/
def requests (attributes : List (String × AttributeValue)) : List Request :=
  attributes.filterMap fun a ↦ a.2.request?

theorem requests_cons (a : String × AttributeValue) (rest : List (String × AttributeValue)) :
    requests (a :: rest) = a.2.request?.toList ++ requests rest := by
  rw [requests, List.filterMap_cons]
  cases a.2.request? <;> rfl

/-- **Attributes are requests to the store**, one after another. -/
theorem referAll_eq_answerAll (s : ValueStore) (attributes : List (String × AttributeValue)) :
    (s.referAll attributes).2 = (s.answerAll (requests attributes)).2 := by
  induction attributes generalizing s with
  | nil => rfl
  | cons a rest ih =>
    obtain ⟨key, v⟩ := a
    have hstep : (s.referAll ((key, v) :: rest)).2 = ((s.refer v).2.referAll rest).2 := rfl
    rw [hstep, ih]
    cases h : v.request? with
    | none =>
      obtain ⟨text, -, hrefer⟩ := refer_of_plain h s
      rw [hrefer, requests_cons, h]
      rfl
    | some r =>
      rw [refer_of_request h, requests_cons, h]
      rfl

theorem extends_referAll (s : ValueStore) (attributes : List (String × AttributeValue)) :
    Extends s (s.referAll attributes).2 :=
  s.referAll_eq_answerAll attributes ▸ Extends.answerAll s _

/-- **Each text says its attribute.** -/
theorem says_referAll (s : ValueStore) (attributes : List (String × AttributeValue)) :
    List.Forall₂ (fun a b ↦ b.1 = a.1 ∧ (s.referAll attributes).2.Says a.2 b.2) attributes
      (s.referAll attributes).1 := by
  induction attributes generalizing s with
  | nil => exact .nil
  | cons a rest ih =>
    obtain ⟨key, v⟩ := a
    exact .cons ⟨rfl, (s.says_refer v).extends (extends_referAll _ rest)⟩ (ih (s.refer v).2)

section

variable {s : ValueStore} {attributes : List (String × AttributeValue)}
  {texts : List (String × String)}
  (h : List.Forall₂ (fun a b ↦ b.1 = a.1 ∧ s.Says a.2 b.2) attributes texts)

include h

theorem map_fst_texts : texts.map Prod.fst = attributes.map Prod.fst := by
  induction h with
  | nil => rfl
  | cons hfirst _ ih => rw [List.map_cons, List.map_cons, ih, hfirst.1]

/-- **Texts that say some attributes** are all that do. -/
theorem mem_texts_iff (key text : String) :
    (key, text) ∈ texts ↔ ∃ v, (key, v) ∈ attributes ∧ s.Says v text := by
  induction h with
  | nil => simp
  | @cons a b rest rest' hfirst _ ih =>
    obtain ⟨key', v'⟩ := a
    obtain ⟨key'', text'⟩ := b
    obtain ⟨rfl, hsaid⟩ : key'' = key' ∧ s.Says v' text' := hfirst
    rw [List.mem_cons, ih]
    constructor
    · rintro (heq | ⟨v, hv, hsaid⟩)
      · obtain ⟨rfl, rfl⟩ := Prod.mk.inj heq
        exact ⟨v', List.mem_cons_self, hsaid⟩
      · exact ⟨v, List.mem_cons_of_mem _ hv, hsaid⟩
    · rintro ⟨v, hv, hsaid'⟩
      rcases List.mem_cons.1 hv with heq | hv
      · obtain ⟨rfl, rfl⟩ := Prod.mk.inj heq
        exact .inl (Prod.ext rfl (hsaid'.unique hsaid))
      · exact .inr ⟨v, hv, hsaid'⟩

/-- **What is found among texts**, taken as a map, if no attribute comes twice. -/
theorem get?_ofList_texts (hkeys : (attributes.map Prod.fst).Nodup) (key text : String) :
    (SortedMap.ofList texts).get? key = some text ↔
      ∃ v, (key, v) ∈ attributes ∧ s.Says v text := by
  rw [← map_fst_texts h] at hkeys
  rw [← mem_texts_iff h, SortedMap.ofList, SortedMap.get?_insertAll_eq_some_iff hkeys]
  exact or_iff_left fun hnone ↦ absurd hnone.2 (by simp)

end

end ValueStore

end ViewCompiler
