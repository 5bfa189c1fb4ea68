import ViewCompiler.Android
import ViewCompiler.Proofs.Layout.Words
import ViewCompiler.Proofs.Resource.Contents
import ViewCompiler.Proofs.Resource.Readable
import ViewCompiler.Proofs.Template.AndroidAttributes
import ViewCompiler.Proofs.Template.Markup
import ViewCompiler.Proofs.Template.Numbers

/-!
# Characters of documents

A document can be read exactly if the names, the attributes and the lines in its markup can
(`Markup.readable_text`). Where no node is replaced, all that is in the markup is the start or the
end of an element, so that the document can be read if the elements of all its nodes can
(`Outline.readable_markup`). The names of elements are words of the platform, which can be read
anyway (`Android.readable_elementTag`).

No text that an element shows is in its attributes: it is stored, and the attribute refers to it by
a name. What is left there are words of the platform, numbers, names of views and references, which
are all readable (`Android.readable_said`). The texts themselves are in the requests to the store,
and they are those of the node (`Android.says_of_mem_requests`).
-/

namespace ViewCompiler

open Xml (Readable AttributesReadable)

/-- The names, the attributes and the lines in a part of a document are readable. -/
def Markup.Readable : Markup → Prop
  | opening tag => Xml.Readable tag.name ∧ AttributesReadable tag.attributes
  | selfClosing tag => Xml.Readable tag.name ∧ AttributesReadable tag.attributes
  | closing name => Xml.Readable name
  | lines l => ∀ line ∈ l, Xml.Readable line

namespace Markup

theorem readable_line {depth : Nat} {text : String} :
    Xml.Readable (Dialect.line depth text) ↔ Xml.Readable text := by
  have hend : Xml.Readable "\n" := by decide
  rw [Dialect.line]
  simp only [Xml.readable_append, Xml.readable_indent, hend, true_and, and_true]

theorem readable_startTag {depth : Nat} {tag : Tag} {finish : String}
    (hfinish : Xml.Readable finish) : Xml.Readable (startTag depth tag finish) ↔
      Xml.Readable tag.name ∧ AttributesReadable tag.attributes := by
  have hmarks : Xml.Readable "<" ∧ Xml.Readable "\n" ∧ Xml.Readable "=\"" ∧ Xml.Readable "\"" := by
    decide
  rw [startTag, readable_line]
  simp only [Xml.readable_append, hmarks, hfinish, true_and, and_true]
  refine and_congr_right fun _ ↦ ?_
  rw [Xml.Readable, Text.within_join, List.forall_mem_map]
  refine forall₂_congr fun a _ ↦ ?_
  show Xml.Readable ("\n" ++ Xml.indent (depth + 1) ++ a.1 ++ "=\"" ++ Xml.escape a.2 ++ "\"") ↔ _
  simp only [Xml.readable_append, Xml.readable_indent, Xml.readable_escape, hmarks, true_and,
    and_true]

theorem readable_write {l : List Markup} (depth : Nat) :
    Xml.Readable (write depth l) ↔ ∀ m ∈ l, m.Readable := by
  induction l generalizing depth with
  | nil => exact iff_of_true (by rw [write]; decide) fun _ h ↦ absurd h List.not_mem_nil
  | cons m r ih =>
    have hends : Xml.Readable ">" ∧ Xml.Readable " />" ∧ Xml.Readable "</" := by decide
    rw [List.forall_mem_cons]
    cases m with
    | opening tag =>
      rw [write, Xml.readable_append, readable_startTag hends.1, ih]
      rfl
    | selfClosing tag =>
      rw [write, Xml.readable_append, readable_startTag hends.2.1, ih]
      rfl
    | closing name =>
      rw [write, Xml.readable_append, readable_line, ih]
      simp only [Xml.readable_append, hends, true_and, and_true]
      rfl
    | lines l =>
      rw [write, Xml.readable_append, ih, Xml.Readable, Text.within_join, List.forall_mem_map]
      exact and_congr_left fun _ ↦ forall₂_congr fun line _ ↦ readable_line

/-- **A document is readable exactly if its markup is.** -/
theorem readable_text {l : List Markup} : Xml.Readable (text l) ↔ ∀ m ∈ l, m.Readable := by
  have hdeclaration : Xml.Readable (Xml.declaration ++ "\n") := by decide
  rw [text, Xml.readable_append, and_iff_right hdeclaration, readable_write]

end Markup

/-! ### Documents of outlines -/

theorem Dialect.mem_markup (d : Dialect) {t : NodeTree} {pieces : List Piece} {outermost : Bool}
    {m : Markup} (h : m ∈ d.markup t outermost pieces) :
    ∃ p ∈ pieces, ∃ first, d.markupOf t first p = some m := by
  induction pieces generalizing outermost with
  | nil => exact absurd h List.not_mem_nil
  | cons p r ih =>
    rw [markup, List.mem_append] at h
    rcases h with h | h
    · exact ⟨p, List.mem_cons_self, outermost, Option.mem_toList.1 h⟩
    · obtain ⟨q, hq, hm⟩ := ih h
      exact ⟨q, List.mem_cons_of_mem _ hq, hm⟩

/-- **Elements that can be read** make a document that can be read, if none is replaced. -/
theorem Outline.readable_markup {texts : SortedMap NodeId String}
    (hnone : ∀ i, texts.get? i = none) (d : Dialect) (t : NodeTree) {o : Outline}
    (hnodes : ∀ i ∈ o.ids, ∀ n, t.get? i = some n → ∀ first,
      Readable (d.elementTag t n) ∧ AttributesReadable (d.writtenAttributes n first))
    (outermost : Bool) : ∀ m ∈ d.markup t outermost (o.pieces texts), m.Readable := fun m hm ↦ by
  obtain ⟨p, hp, first, hmarkup⟩ := d.mem_markup hm
  obtain ⟨i, hi⟩ := exists_mentioned hnone hp
  have hnode := hnodes i (mem_ids_of_mentioned hnone hp hi)
  cases p with
  | opening j =>
    obtain rfl := Option.some.inj hi
    obtain ⟨n, hn, rfl⟩ := Option.map_eq_some_iff.1 hmarkup
    exact hnode n hn first
  | selfClosing j =>
    obtain rfl := Option.some.inj hi
    obtain ⟨n, hn, rfl⟩ := Option.map_eq_some_iff.1 hmarkup
    exact hnode n hn first
  | closing j =>
    obtain rfl := Option.some.inj hi
    obtain ⟨n, hn, rfl⟩ := Option.map_eq_some_iff.1 hmarkup
    exact (hnode n hn first).1
  | raw text => exact absurd hi (by simp [Piece.mentioned?])
  | slot place => exact absurd hi (by simp [Piece.mentioned?])

/-! ### Words of the platform -/

theorem Android.readable_elementTag (s : Screen) (t : NodeTree) (n : Node) :
    Readable ((dialect slug s).elementTag t n) := by
  have hcontainer : ∀ kind, Readable (containerTag kind) := fun kind ↦ by cases kind <;> decide
  have hinput : ∀ type, Readable (inputTag type) := fun type ↦ by
    unfold inputTag
    split <;> decide
  have hleaf : Readable (leafTag n) := by
    unfold leafTag
    split
    · decide
    · decide
    · decide
    · exact hinput _
    · decide
    · decide
    · decide
    · split
      · decide
      · split <;> decide
  rw [Dialect.elementTag]
  split
  · split
    · exact hcontainer .frame
    · exact hleaf
  · exact hcontainer _

/-! ### Texts of attributes -/

open Xml (Readable)
open ValueStore (Kind Request requests)

namespace Android

variable {slug : String → String} {s : Screen} {t : NodeTree} {n : Node} {i : NodeId}
  {key text name : String}

/-! ### In the document -/

theorem admits_of_isUnmarked {c : Char} (h : isUnmarked c = true) : Xml.admits c = true := by
  simp only [isUnmarked, Bool.or_eq_true, beq_iff_eq] at h
  rcases h with (h | rfl) | rfl
  · exact Xml.admits_of_isNumeral h
  · decide
  · decide

theorem readable_idName (hslug : ∀ text, Text.IsSlug (slug text)) {id : String}
    (h : idName? slug id = some name) : Readable name := by
  have hid : Readable (Text.underscored (slug id)) := Text.readable_underscored (hslug id)
  rw [idName?] at h
  generalize Text.underscored (slug id) = made at h hid
  split at h
  · exact absurd h (by simp)
  · rw [← Option.some.inj h]
    split
    · exact Xml.readable_append.2 ⟨by decide, hid⟩
    · exact hid

/-- The name of a view is made from a slug or a number. -/
theorem readable_viewName (hslug : ∀ text, Text.IsSlug (slug text))
    (h : viewName? slug t n = some name) : Readable name := by
  rw [viewName?_eq, Option.or_eq_some_iff] at h
  rcases h with h | ⟨-, h⟩
  · obtain ⟨id, -, h⟩ := Option.bind_eq_some_iff.1 h
    exact readable_idName hslug h
  · split at h
    · rw [← Option.some.inj h]
      exact Xml.readable_append.2 ⟨by decide, Xml.readable_toString_nat _⟩
    · exact absurd h (by simp)

theorem Plain.readable (hslug : ∀ text, Text.IsSlug (slug text)) (h : Plain slug t n key text) :
    Readable text := by
  cases h with
  | text unmarked => exact unmarked.mono fun _ ↦ admits_of_isUnmarked
  | declaration named => exact Xml.readable_append.2 ⟨by decide, readable_viewName hslug named⟩
  | reference found named => exact Xml.readable_append.2 ⟨by decide, readable_viewName hslug named⟩

theorem readable_key {v : AttributeValue} (h : (key, v) ∈ attributes slug s t i) : Readable key :=
  (by decide : ∀ name ∈ names, Readable name) key (mem_names_of_mem h)

/-- **What says an attribute is readable**, if the names in the store are. -/
theorem readable_said (hslug : ∀ text, Text.IsSlug (slug text)) {v : AttributeValue}
    (hv : (key, v) ∈ attributes slug s t i) {store : ValueStore}
    (hstore : store.Entries Kind.Framed) (hsaid : store.Says v text) : Readable text := by
  cases hsaid with
  | plain =>
    rw [attributes] at hv
    split at hv
    · exact ((fits_nodeAttributes slug s t _).plain key text hv).readable hslug
    · exact absurd hv List.not_mem_nil
  | @stored _ r _ request named =>
    have hword : Readable r.kind.resource.word := by
      generalize r.kind.resource = kind
      cases kind <;> decide
    obtain ⟨e, he, -, rfl⟩ := Table.mem_of_name? named
    have hname : Readable e.name := (hstore r.kind e he).name
    exact Xml.readable_append.2 ⟨Xml.readable_append.2
      ⟨Xml.readable_append.2 ⟨by decide, hword⟩, by decide⟩, hname⟩

/-! ### In the store -/

theorem within_fontFamily {q : Char → Prop} {style : Style}
    (h : ∀ text, style.get? Style.familyProperty = some text → Text.Within q text) {family : String}
    (hfamily : style.fontFamily = some family) : Text.Within q family := by
  obtain ⟨v, hv, hrest⟩ := Option.bind_eq_some_iff.1 hfamily
  dsimp only at hrest
  split at hrest
  · exact absurd hrest (by simp)
  · rw [← Option.some.inj hrest]
    refine Text.within_ofList.2 fun c hc ↦ h v hv c ?_
    exact (List.takeWhile_sublist _).subset
      (Text.mem_of_mem_strip (Text.mem_of_mem_strip hc))

/-- **What is stored for a node is what it says.** -/
theorem Stores.says_value {q : Char → Prop} {v : AttributeValue} (h : Stores n v)
    (hn : n.said.Words q) {r : Request} (hr : v.request? = some r) : r.kind.Says q r.value := by
  cases v with
  | plain text => exact absurd hr (by simp [AttributeValue.request?])
  | string text =>
    obtain rfl := Option.some.inj hr
    rcases h with h | ⟨key, h⟩
    · exact hn.text text h
    · exact hn.attributes key text h
  | array hint items =>
    obtain rfl := Option.some.inj hr
    obtain rfl : items = n.entries := h
    exact hn.entries
  | font family =>
    obtain rfl := Option.some.inj hr
    exact (within_fontFamily hn.family h).trim
  | _ =>
    obtain rfl := Option.some.inj hr
    trivial

/-- **The requests of all nodes** ask for what they say. -/
theorem says_of_mem_requests {q : Char → Prop} (ht : t.AllSay (Said.Words q)) {r : Request}
    (hr : r ∈ requests (attributes slug s t i)) : r.kind.Says q r.value := by
  obtain ⟨⟨key, v⟩, hv, hrequest⟩ := List.mem_filterMap.1 hr
  rw [attributes] at hv
  split at hv
  · rename_i n hn
    exact ((fits_nodeAttributes slug s t n).stores key v hv).says_value (ht i n hn) hrequest
  · exact absurd hv List.not_mem_nil

end Android

end ViewCompiler
