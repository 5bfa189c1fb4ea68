import ViewCompiler.Proofs.Resource.LegalNames
import ViewCompiler.Proofs.Resource.Readable
import ViewCompiler.Proofs.Resource.Referring

/-!
# What is in a store

Every entry of a store has been made for a request, and nothing of it is changed later. So what
holds of the names and values that requests make holds of all entries
(`ValueStore.entries_answerAll`).

Two things follow for stores that make names from slugs. All names are readable, whatever texts they
are made from, and so are the lengths (`ValueStore.framed_answerAll`). And the strings, the items of
arrays and the font families are those of the requests, with blanks around families taken off
(`ValueStore.says_answerAll`). The tables that are collected from a store have what is in the store
(`ResourceTables.framed_collect`, `ResourceTables.says_collect`).
-/

namespace ViewCompiler

open Xml (Readable)

/-! ### Names -/

namespace Name

theorem readable_suffixed {base : String} (h : Readable base) (n : Nat) :
    Readable (suffixed base n) :=
  Xml.readable_append.2 ⟨Xml.readable_append.2 ⟨h, by decide⟩, Xml.readable_toString_nat n⟩

theorem readable_claim {base : String} (h : Readable base) (taken : List String) (suffix : Bool) :
    Readable (claim taken base suffix) := by
  rw [claim]
  split
  · exact h
  · rw [firstFree_snd]
    exact readable_suffixed h _

end Name

namespace Text

theorem admits_of_isSlugChar {c : Char} (h : isSlugChar c = true) : Xml.admits c = true := by
  refine Xml.admits_of_isAlphanum ?_
  rw [isSlugChar, Bool.or_eq_true] at h
  rw [Char.isAlphanum, Char.isAlpha]
  rcases h with h | h <;> simp [h]

theorem readable_underscored {s : String} (h : IsSlug s) : Readable (underscored s) := by
  refine within_ofList.2 fun c hc ↦ ?_
  obtain ⟨d, hd, rfl⟩ := List.mem_map.1 hc
  split
  · decide
  · rename_i hdash
    exact admits_of_isSlugChar ((h.mem hd).resolve_right hdash)

end Text

namespace Name

theorem readable_ofSlug {config : NameConfig} (hreserved : Readable config.reservedPrefix)
    {slug fallback : String} (hslug : Text.IsSlug slug) (hfallback : Readable fallback) :
    Readable (ofSlug config slug fallback) := by
  have hwords : ∀ w ∈ (Text.runs (· == '-') slug.toList).take (max config.maxSlugWords 1),
      ∀ c ∈ w, Xml.admits c = true := fun w hw c hc ↦ by
    rcases hslug.mem ((Text.isRun_of_mem (List.mem_of_mem_take hw)).mem c hc) with h | rfl
    · exact Text.admits_of_isSlugChar h
    · decide
  rw [ofSlug]
  generalize (Text.runs (· == '-') slug.toList).take (max config.maxSlugWords 1) = ws at hwords
  have hname : Readable
      (if ws.isEmpty then fallback else "_".intercalate (ws.map String.ofList)) := by
    split
    · exact hfallback
    · exact Text.within_intercalate (by decide) hwords
  generalize (if ws.isEmpty then fallback else "_".intercalate (ws.map String.ofList)) = name
    at hname
  split
  · exact Xml.readable_append.2 ⟨hreserved, hname⟩
  · exact hname

theorem readable_of_isStyleName {name : String} (h : isStyleName name = true) :
    Readable name := by
  obtain ⟨c, cs, hname, hc, hcs⟩ := isSpelled_iff.1 h
  have hbar : Xml.admits '_' = true := by decide
  rw [Readable, Text.Within, hname, List.forall_mem_cons]
  refine ⟨Xml.admits_of_isAlphanum ?_, fun d hd ↦ ?_⟩
  · rw [Char.isAlphanum, Char.isAlpha, hc, Bool.true_or, Bool.true_or]
  · rcases Bool.or_eq_true_iff.1 (hcs d hd) with hd | hd
    · exact Xml.admits_of_isAlphanum hd
    · exact beq_iff_eq.1 hd ▸ hbar

end Name

namespace ValueStore

/-! ### Entries -/

/-- All entries of a store satisfy `P`. -/
def Entries (P : (k : Kind) → Entry k.Value → Prop) (s : ValueStore) : Prop :=
  ∀ k, ∀ e ∈ (s.table k).entries, P k e

/-- Two stores that make names in the same way. -/
structure Alike (s s' : ValueStore) : Prop where
  slug : s'.slug = s.slug
  config : s'.config = s.config
  palette : s'.palette = s.palette

theorem alike_answer (s : ValueStore) (r : Request) : Alike s (s.answer r).2 := by
  cases r <;> exact ⟨rfl, rfl, rfl⟩

theorem Alike.trans {s s' s'' : ValueStore} (h : Alike s s') (h' : Alike s' s'') : Alike s s'' :=
  ⟨h'.slug.trans h.slug, h'.config.trans h.config, h'.palette.trans h.palette⟩

section

variable {P : (k : Kind) → Entry k.Value → Prop} {s : ValueStore}

theorem entries_new (slug : String → String) (config : NameConfig) (palette : Palette) :
    (new slug config palette).Entries P := fun k e he ↦ by
  cases k <;> exact absurd he List.not_mem_nil

/-- **One request** makes one entry at most. -/
theorem entries_answer (h : s.Entries P) (r : Request)
    (hr : P r.kind ⟨r.key, s.fresh r, r.value⟩) : (s.answer r).2.Entries P := fun k e he ↦ by
  by_cases hk : r.kind = k
  · subst hk
    rw [(s.answer_eq_fresh r).2] at he
    rcases (s.table r.kind).request_cases r.key (s.fresh r) r.value with ⟨name, -, hok⟩ | ⟨-, hok⟩
    · rw [hok] at he
      exact h r.kind e he
    · rw [hok] at he
      rcases List.mem_append.1 he with he | he
      · exact h r.kind e he
      · exact List.mem_singleton.1 he ▸ hr
  · rw [s.table_answer_of_ne r hk] at he
    exact h k e he

/-- **What holds of the entries that requests make holds of all entries.** -/
theorem entries_answerAll (h : s.Entries P) {rs : List Request}
    (hrs : ∀ s', Alike s s' → ∀ r ∈ rs, P r.kind ⟨r.key, s'.fresh r, r.value⟩) :
    (s.answerAll rs).2.Entries P := by
  induction rs generalizing s with
  | nil => exact h
  | cons r rs ih =>
    have hfirst := entries_answer h r (hrs s ⟨rfl, rfl, rfl⟩ r (.head _))
    exact ih hfirst fun s' hs' r' hr' ↦ hrs s' ((s.alike_answer r).trans hs') r' (.tail _ hr')

end

/-! ### Names of entries -/

theorem readable_dimensionName {text : String} (h : Readable text) :
    Readable (dimensionName text) := by
  refine Xml.readable_append.2 ⟨by decide, Text.within_ofList.2 fun d hd ↦ ?_⟩
  obtain ⟨c, hc, hd⟩ := List.mem_flatMap.1 hd
  split at hd
  · exact (by decide : Readable "neg_") d hd
  split at hd
  · exact (by decide : Readable "_") d hd
  · exact List.mem_singleton.1 hd ▸ h c hc

/-- The text of a length. -/
theorem readable_length (x : Scalar) (unit : DimenUnit) : Readable (x.text ++ unit.suffix) :=
  Xml.readable_append.2 ⟨Xml.readable_text x, by cases unit <;> decide⟩

/-- **Every base is readable**, whatever text it is made from. -/
theorem readable_base {s : ValueStore} (hslug : ∀ text, Text.IsSlug (s.slug text))
    (hreserved : Readable s.config.reservedPrefix) (r : Request) : Readable (s.base r).1 := by
  have hname : ∀ text {fallback : String}, Readable fallback → Readable (s.nameFor text fallback) :=
    fun text fallback hfallback ↦ by
      rw [nameFor]
      exact Name.readable_ofSlug hreserved (hslug text) hfallback
  cases r with
  | string text => exact hname text (by decide)
  | array hint items => exact hname (hint ++ " entries") (by decide)
  | color c =>
    rw [base]
    split
    · exact hname _ (by decide)
    · decide
  | font family => exact hname ("font " ++ Text.trim family) (by decide)
  | dimension x unit => exact readable_dimensionName (readable_length x unit)
  | drawable d => exact hname d.hint (by decide)

/-- What is readable of an entry, whatever it has been made for: the name, and of a length the value
too. -/
def Kind.Framed : (k : Kind) → Entry k.Value → Prop
  | .dimension, e => Readable e.name ∧ Readable e.value
  | _, e => Readable e.name

theorem Kind.Framed.name {k : Kind} {e : Entry k.Value} (h : k.Framed e) : Readable e.name := by
  cases k with
  | dimension => exact h.1
  | _ => exact h

/-- **Names and lengths are readable.** -/
theorem framed_answerAll {slug : String → String} (hslug : ∀ text, Text.IsSlug (slug text))
    {config : NameConfig} (hreserved : Readable config.reservedPrefix) (palette : Palette)
    (rs : List Request) : ((new slug config palette).answerAll rs).2.Entries Kind.Framed := by
  refine entries_answerAll (entries_new _ _ _) fun s hs r _ ↦ ?_
  have hname : Readable (s.fresh r) :=
    Name.readable_claim (readable_base (hs.slug ▸ hslug) (hs.config ▸ hreserved) r) _ _
  cases r with
  | dimension x unit => exact ⟨hname, readable_length x unit⟩
  | _ => exact hname

/-! ### Texts -/

/-- All characters of the texts in a value satisfy `q`. -/
def Kind.Says (q : Char → Prop) : (k : Kind) → k.Value → Prop
  | .string, text => Text.Within q text
  | .array, (items : List String) => ∀ item ∈ items, Text.Within q item
  | .font, family => Text.Within q family
  | _, _ => True

/-- **The texts in a store are those of the requests.** -/
theorem says_answerAll {q : Char → Prop} {rs : List Request}
    (hrs : ∀ r ∈ rs, r.kind.Says q r.value) (slug : String → String) (config : NameConfig)
    (palette : Palette) :
    ((new slug config palette).answerAll rs).2.Entries fun k e ↦ k.Says q e.value :=
  entries_answerAll (entries_new _ _ _) fun _ _ r hr ↦ hrs r hr

end ValueStore

/-! ### Tables of a store -/

namespace ResourceTables

open ValueStore (Kind)

variable {store : ValueStore} {styles : List StyleEntry}

theorem exists_of_mem_sorted {V : Type} {t : Table V} {e : String × V} (h : e ∈ sorted t.pairs) :
    ∃ entry ∈ t.entries, (entry.name, entry.value) = e :=
  List.mem_map.1 (mem_stableSort.1 h)

/-- **In the tables everything is readable** but for the texts, if it is in the store and if the
styles are readable. -/
theorem framed_collect (h : store.Entries Kind.Framed)
    (hstyles : ∀ s ∈ styles, (Readable s.name ∧ ∀ p, s.parent = some p → Readable p) ∧
      Xml.AttributesReadable s.attributes) : (collect store styles).Framed where
  strings e he := by
    obtain ⟨entry, hentry, rfl⟩ := exists_of_mem_sorted he
    exact h .string entry hentry
  arrays e he := by
    obtain ⟨entry, hentry, rfl⟩ := exists_of_mem_sorted he
    exact h .array entry hentry
  fonts e he := by
    obtain ⟨entry, hentry, rfl⟩ := exists_of_mem_sorted he
    exact h .font entry hentry
  colors e he := by
    obtain ⟨⟨name, c⟩, hpair, rfl⟩ := List.mem_map.1 (mem_stableSort.1 he)
    obtain ⟨entry, hentry, heq⟩ := List.mem_map.1 hpair
    obtain ⟨rfl, rfl⟩ := Prod.mk.inj heq
    exact ⟨h .color entry hentry, Xml.readable_hex _⟩
  dimens e he := by
    obtain ⟨entry, hentry, rfl⟩ := exists_of_mem_sorted he
    exact h .dimension entry hentry
  styles s hs := hstyles s (mem_stableSort.1 hs)

/-- **The texts in the files** are those in the store. -/
theorem says_collect {q : Char → Prop} (h : store.Entries fun k e ↦ k.Says q e.value)
    {file text : String} (htext : text ∈ (collect store styles).textsIn file) :
    Text.Within q text := by
  rw [textsIn] at htext
  split at htext
  · obtain ⟨e, he, rfl⟩ := List.mem_map.1 htext
    obtain ⟨entry, hentry, rfl⟩ := exists_of_mem_sorted he
    exact h .string entry hentry
  split at htext
  · obtain ⟨e, he, hitem⟩ := List.mem_flatMap.1 htext
    obtain ⟨entry, hentry, rfl⟩ := exists_of_mem_sorted he
    exact h .array entry hentry text hitem
  split at htext
  · obtain ⟨e, he, rfl⟩ := List.mem_map.1 htext
    obtain ⟨entry, hentry, rfl⟩ := exists_of_mem_sorted he
    exact h .font entry hentry
  · exact absurd htext List.not_mem_nil

end ResourceTables

end ViewCompiler
