import ViewCompiler.Proofs.Convert.Elements
import ViewCompiler.Proofs.Snapshot
import ViewCompiler.Proofs.Template.ReadableMarkup

/-!
# Characters of the written files

What is measured of an element may have any characters in it, and XML does not allow all of them in
a document. The main statement is `Converter.files_readable_iff`: without extensions the documents
and the drawables can be read whatever has been measured, since they have no texts of the elements
in them, but names that are made from slugs and references by such names. The texts are in the files
of values, as they are but for escapes, and nothing takes a forbidden character away from them. So a
file of values can be read exactly if the texts in it can (`ConversionOutput.Transcribes`), and
there are snapshots of which one cannot (`Converter.files_readable_iff_control`).

Words are followed from the elements to the nodes (`Prepared.words`), from the nodes to the store
(`Prepared.says_values`), and from the store to the tables.
-/

namespace ViewCompiler

open NodeTree ValueStore
open Xml (Readable AttributesReadable)

/-! ### Words of a snapshot -/

/-- A character of some texts, or the space that is put between words. -/
def Text.IsFrom (texts : List String) (c : Char) : Prop := c = ' ' ∨ ∃ text ∈ texts, c ∈ text.toList

/-- **What is measured has the characters of the snapshot.** -/
theorem Snapshot.words_provider (s : Snapshot) : s.provider.Words (Text.IsFrom s.texts) := by
  intro h m hm
  obtain ⟨box, hbox, hmeasure⟩ := exists_box hm
  obtain ⟨bounds, -, rfl⟩ := Option.map_eq_some_iff.1 hmeasure
  have htexts : ∀ text ∈ box.texts, Text.Within (Text.IsFrom s.texts) text := fun text ht c hc ↦
    .inr ⟨text, List.mem_flatMap.2 ⟨box, hbox, ht⟩, hc⟩
  simp only [SnapshotBox.texts, List.forall_mem_append] at htexts
  obtain ⟨⟨htext, hattributes⟩, hstyle⟩ := htexts
  exact ⟨fun text h ↦ htext text (Option.mem_toList.2 h),
    fun key text h ↦ hattributes text (List.mem_map_of_mem (SortedMap.mem_entries_iff.2 h)),
    fun key text h ↦ hstyle text (List.mem_map_of_mem (SortedMap.mem_entries_iff.2 h))⟩

theorem Provider.says_words {q : Char → Prop} {p : Provider} (hp : p.Words q) (hspace : q ' ') :
    p.Says (Said.Words q) where
  nothing := .nothing q
  document := Ingest.words_document hspace hp

/-! ### Words of a conversion -/

namespace Prepared

variable {σ : Type} {c : Converter σ} {p : Provider} {palette : Palette} {s : σ} {d : Decided σ}
  {last : Context} {os : List Outline} {assembly : Assembly} {host : σ}
  (h : Prepared c p palette s d last os assembly host)

include h

/-- **All nodes say words that have been measured.** -/
theorem words (hnil : c.host.extensions = []) {q : Char → Prop} (hspace : q ' ')
    (hp : p.Words q) : d.run.context.tree.AllSay (Said.Words q) := by
  have hlasting := Converter.lasting_decided
    (P := fun context ↦ context.tree.AllSay (Said.Words q))
    ⟨fun _ _ h ↦ h, fun _ h ↦ h, fun h ht ↦ ht h⟩ (Host.keeps_of_extensions_eq_nil hnil _)
    (Provider.says_words hp hspace) palette s (.empty _)
  rw [h.tree]
  exact hlasting.computeRenderDepths

/-- The store at the end has been asked for the attributes of the nodes in the output. -/
theorem values_eq : last.values = ((ValueStore.new c.slug c.config.values palette).answerAll
    ((os.flatMap Outline.ids).flatMap fun i ↦
      requests (c.target.attributes d.run.context.tree i))).2 := by
  rw [h.attributed.values, h.values]

/-- The names in the store are readable. -/
theorem framed_values (hslug : ∀ text, Text.IsSlug (c.slug text))
    (hreserved : Readable c.config.values.reservedPrefix) : last.values.Entries Kind.Framed := by
  rw [h.values_eq]
  exact framed_answerAll hslug hreserved palette _

section

variable {screen : Android.Screen} (hscreen : c.target = Android.dialect c.slug screen)

include hscreen

/-- **The texts in the store are what the nodes say.** -/
theorem says_values {q : Char → Prop} (hwords : d.run.context.tree.AllSay (Said.Words q)) :
    last.values.Entries fun k e ↦ k.Says q e.value := by
  rw [h.values_eq, hscreen]
  refine says_answerAll (fun r hr ↦ ?_) _ _ _
  obtain ⟨i, -, hr⟩ := List.mem_flatMap.1 hr
  exact Android.says_of_mem_requests hwords hr

variable (hslug : ∀ text, Text.IsSlug (c.slug text))
  (hreserved : Readable c.config.values.reservedPrefix)

include hslug hreserved

/-- **No attribute of a node has a text of an element in it.** -/
theorem readable_entries {i : NodeId} (hi : i ∈ os.flatMap Outline.ids) {n : Node}
    (hn : last.tree.get? i = some n) : AttributesReadable n.attributes.entries := fun a ha ↦ by
  obtain ⟨v, hv, hsaid⟩ := (h.mem_entries_iff hscreen hi hn a.1 a.2).1 ha
  exact ⟨Android.readable_key hv,
    Android.readable_said hslug hv (h.framed_values hslug hreserved) hsaid⟩

variable {sharing : SharingConfig} {shared : Context} {styles : List StyleEntry}
  (hshare : last.share c.target sharing (os.flatMap Outline.ids) = (styles, shared))

include hshare

omit h hscreen hslug hreserved in
/-- The names of styles are made from those of elements. -/
theorem readable_styleName {name : String} (hname : name ∈ styles.map StyleEntry.name) :
    Readable name := by
  obtain ⟨e, he, rfl⟩ := List.mem_map.1 hname
  obtain ⟨rfl, rfl⟩ := Prod.mk.inj hshare
  exact Name.readable_of_isStyleName (Sharing.spelled_ofMembers _ _ e he)

theorem readable_style {e : StyleEntry} (he : e ∈ styles) :
    (Readable e.name ∧ ∀ parent, e.parent = some parent → Readable parent) ∧
      AttributesReadable e.attributes := by
  refine ⟨⟨readable_styleName hshare (List.mem_map_of_mem he), fun parent hparent ↦
    readable_styleName hshare ((h.used hshare).parents e he parent hparent)⟩, fun a ha ↦ ?_⟩
  obtain ⟨i, hi, n, hn, hmem⟩ := h.exists_of_mem_style hshare he ha
  exact h.readable_entries hscreen hslug hreserved hi hn a hmem

/-- **Every document is readable.** -/
theorem readable_page {o : Outline} (ho : o ∈ os) :
    Readable (Markup.text (o.page c.target shared.tree)) := by
  refine Markup.readable_text.2 (Outline.readable_markup (fun _ ↦ rfl) _ _ ?_ true)
  intro i hi n' hn' first
  have hids : i ∈ os.flatMap Outline.ids := List.mem_flatMap.2 ⟨o, ho, hi⟩
  obtain ⟨n, hn⟩ := h.exists_get? h.attributed.bare hids
  obtain ⟨l, hleads, hperm⟩ := h.exists_split hshare hids hn hn'
  refine ⟨hscreen ▸ Android.readable_elementTag screen shared.tree n',
    List.forall_mem_append.2 ⟨List.forall_mem_append.2 ⟨?_, ?_⟩, fun a ha ↦ ?_⟩⟩
  · rw [hscreen]
    split
    · exact Xml.attributesReadable_singleton.2 (by decide)
    · exact Xml.attributesReadable_nil
  · refine List.forall_mem_map.2 fun style hstyle ↦ ?_
    have hkey : Readable c.target.styleAttribute := hscreen ▸ (by decide : Readable "style")
    rw [Option.mem_toList.1 hstyle] at hleads
    exact ⟨hkey, Xml.readable_append.2
      ⟨by decide, readable_styleName hshare hleads.1.mem_names⟩⟩
  · exact h.readable_entries hscreen hslug hreserved hids hn a
      (hperm.mem_iff.2 (List.mem_append_left _ ha))

end

end Prepared

/-! ### Files -/

/-- **Output with some texts**: all that it has of them is in the files of values, as it is. -/
structure ConversionOutput.Transcribes (o : ConversionOutput) (texts : List String) : Prop where
  documents : ∀ d ∈ o.documents, Readable d.content
  drawables : ∀ file ∈ o.tables.drawableFiles, Readable file.2
  /-- A file of values is readable exactly if the texts in it are. -/
  values : ∀ file ∈ o.tables.valueFiles,
    (Readable file.2 ↔ ∀ text ∈ o.tables.textsIn file.1, Readable text)
  /-- The texts in the files have no characters but those of the texts, and spaces. -/
  origin : ∀ file, ∀ text ∈ o.tables.textsIn file, Text.Within (Text.IsFrom texts) text

namespace ConversionOutput.Transcribes

variable {o : ConversionOutput} {texts : List String} (h : o.Transcribes texts)

include h

/-- **All files are readable exactly if all texts in them are.** -/
theorem readable_iff : (∀ f ∈ o.files, Readable f.content) ↔
    ∀ file, ∀ text ∈ o.tables.textsIn file, Readable text := by
  rw [files, List.forall_mem_append, List.forall_mem_append, List.forall_mem_map,
    List.forall_mem_map, List.forall_mem_map, and_iff_left h.drawables, and_iff_right h.documents]
  constructor
  · intro hvalues file text htext
    obtain ⟨content, hfile⟩ := ResourceTables.exists_valueFile htext
    exact (h.values _ hfile).1 (hvalues _ hfile) text htext
  · exact fun htexts file hfile ↦ (h.values file hfile).2 (htexts file.1)

/-- Readable texts make readable files. -/
theorem readable_of_texts (htexts : ∀ text ∈ texts, Readable text) :
    ∀ f ∈ o.files, Readable f.content := by
  refine h.readable_iff.2 fun file text htext c hc ↦ ?_
  rcases h.origin file text htext c hc with rfl | ⟨t, ht, hc⟩
  · decide
  · exact htexts t ht c hc

end ConversionOutput.Transcribes

namespace Converter

variable {σ : Type}

/-- **Which files can be read.** Without extensions a conversion of a snapshot to views, with names
made from slugs, fails only if the configuration is wrong or there is no document; else all
documents and drawables are readable, whatever is in the snapshot, and a file of values is readable
exactly if its texts are, whose characters are those of the snapshot. -/
theorem files_readable_iff (c : Converter σ) (snapshot : Snapshot) (s : σ)
    (hextensions : c.host.extensions = []) {screen : Android.Screen}
    (hscreen : c.target = Android.dialect c.slug screen)
    (hslug : ∀ text, Text.IsSlug (c.slug text))
    (hreserved : Readable c.config.values.reservedPrefix) :
    (∃ e, c.Fails snapshot.provider s e ∧ (c.convert snapshot.provider s).1 = .error e) ∨
      ∃ o, (c.convert snapshot.provider s).1 = .ok o ∧ o.Transcribes snapshot.texts ∧
        ((∀ f ∈ o.files, Readable f.content) ↔
          ∀ file, ∀ text ∈ o.tables.textsIn file, Readable text) ∧
        ((∀ text ∈ snapshot.texts, Readable text) → ∀ f ∈ o.files, Readable f.content) := by
  have hbare : c.target.OnBare := hscreen ▸ Android.onBare_dialect c.slug screen
  rcases fails_or_prepared hextensions hbare snapshot.provider s with
    ⟨e, he, hfails⟩ | ⟨palette, d, last, os, assembly, host, hcheck, h⟩
  · exact .inl ⟨e, he, hfails c.config.sharing⟩
  obtain ⟨o, hok, hcontents, hpages, htables⟩ := h.exists_pages hextensions hcheck
  obtain ⟨⟨styles, shared⟩, hshare⟩ :
      ∃ r, last.share c.target c.config.sharing (os.flatMap Outline.ids) = r := ⟨_, rfl⟩
  rw [hshare] at htables hpages
  have hframed : o.tables.Framed := htables ▸ ResourceTables.framed_collect
    (h.framed_values hslug hreserved) fun _ he ↦ h.readable_style hscreen hslug hreserved hshare he
  have hwords := h.words hextensions (.inl rfl) snapshot.words_provider
  have htranscribes : o.Transcribes snapshot.texts := by
    refine ⟨?_, fun file hfile ↦ ?_, fun file ↦ hframed.readable_iff, fun file text htext ↦ ?_⟩
    · rw [← List.forall_mem_map (P := fun text ↦ Readable text), hcontents, hpages, List.map_map,
        List.forall_mem_map]
      exact fun _ ho ↦ h.readable_page hscreen hslug hreserved hshare ho
    · obtain ⟨⟨name, drawable⟩, -, hxml⟩ := List.mem_filterMap.1 hfile
      obtain ⟨text, htext, rfl⟩ := Option.map_eq_some_iff.1 hxml
      exact drawable.readable_xml htext
    · rw [htables] at htext
      exact ResourceTables.says_collect (h.says_values hscreen hwords) htext
  exact .inr ⟨o, hok, htranscribes, htranscribes.readable_iff, htranscribes.readable_of_texts⟩

end Converter

/-- A document with a paragraph that has a control character in its text. -/
def Snapshot.control : Snapshot :=
  let box (tag : String) (text : Option String) : SnapshotBox :=
    { SnapshotBox.empty with tag := tag, bounds := some ⟨0, 0, 100, 20⟩, text := text }
  ⟨[("page", some (.node (box "div" none) [.node (box "p" (some "a\x01b")) []]))]⟩

/-- The character gets into the table of strings, and so into its file. -/
theorem Converter.files_readable_iff_control : plain.host.extensions = [] ∧
    plain.target = Android.dialect plain.slug (.new 1 1) ∧
      (∀ text, Text.IsSlug (plain.slug text)) ∧ Readable plain.config.values.reservedPrefix ∧
      ∃ o, (plain.convert Snapshot.control.provider ()).1 = .ok o ∧
        o.Transcribes Snapshot.control.texts ∧ o.tables.textsIn "strings.xml" = ["a\x01b"] ∧
        ¬∀ f ∈ o.files, Readable f.content := by
  have hscreen : plain.target = Android.dialect plain.slug (.new 1 1) := rfl
  have hreserved : Readable plain.config.values.reservedPrefix := by decide
  have htexts : (plain.convert Snapshot.control.provider ()).1.toOption.map
      (fun o ↦ o.tables.textsIn "strings.xml") = some ["a\x01b"] := by decide +kernel
  refine ⟨rfl, hscreen, Text.isSlug_asciiSlug, hreserved, ?_⟩
  rcases files_readable_iff plain Snapshot.control () rfl hscreen Text.isSlug_asciiSlug
    hreserved with
    ⟨e, he, -⟩ | ⟨o, hok, htranscribes, hiff, -⟩
  · exact absurd he (not_fails_plain (by decide) e)
  · rw [hok] at htexts
    have hstrings : o.tables.textsIn "strings.xml" = ["a\x01b"] := Option.some.inj htexts
    refine ⟨o, hok, htranscribes, hstrings, fun hall ↦ ?_⟩
    have hreadable := hiff.1 hall "strings.xml" "a\x01b" (hstrings ▸ List.mem_singleton_self _)
    exact absurd hreadable (by decide)

end ViewCompiler
