import Mathlib
import ViewCompiler.Proofs.Resource.StringFiles
import ViewCompiler.Proofs.Text.Characters

/-!
# Characters of the files of resources

XML allows only some characters in a document (`Xml.admits`), and there is no way to write the
others: no escape and no entity stands for them. Writing a file adds none that are not allowed and
takes none away, so that a document can be read exactly if all names, values and texts of its
elements can (`Xml.readable_document`).

In the files of tables three kinds of texts are written as they are: strings, items of arrays, and
font families (`ResourceTables.textsIn`). Where everything else is readable
(`ResourceTables.Framed`), a file is readable exactly if its texts are
(`ResourceTables.Framed.readable_iff`). The files of drawables have no such texts, so that they are
always readable (`Drawable.readable_xml`).
-/

namespace ViewCompiler

namespace Xml

/-! ### Characters -/

/-- Whether a character is allowed in a document, as in XML 1.0: tab, line feed, carriage return,
and all from the space on but for the surrogates and the last two of the basic plane. -/
def admits (c : Char) : Bool :=
  let n := c.toNat
  n == 0x9 || n == 0xa || n == 0xd || (0x20 ≤ n && n ≤ 0xd7ff) || (0xe000 ≤ n && n ≤ 0xfffd) ||
    (0x10000 ≤ n && n ≤ 0x10ffff)

/-- A text with nothing but characters that are allowed. -/
def Readable (s : String) : Prop := Text.Within (fun c ↦ admits c = true) s

instance (s : String) : Decidable (Readable s) :=
  inferInstanceAs (Decidable (Text.Within (fun c ↦ admits c = true) s))

variable {s t : String}

theorem readable_append : Readable (s ++ t) ↔ Readable s ∧ Readable t := Text.within_append

/-- Where each character becomes some characters that are allowed exactly if it is, a text stays
readable, or not. -/
theorem readable_flatMap {f : Char → List Char}
    (hf : ∀ c, (f c).all admits = admits c) (cs : List Char) :
    (∀ d ∈ cs.flatMap f, admits d = true) ↔ ∀ c ∈ cs, admits c = true := by
  rw [← List.all_eq_true, ← List.all_eq_true, List.all_flatMap]
  exact Bool.eq_iff_iff.1 (congrArg cs.all (funext hf))

/-- **Entities hide nothing**: what they stand for is allowed anyway. -/
theorem readable_escape : Readable (escape s) ↔ Readable s := by
  rw [escape, Readable, Text.within_ofList]
  refine readable_flatMap (fun c ↦ ?_) s.toList
  simp only [escapeChar]
  split
  · subst c; decide
  split
  · subst c; decide
  split
  · subst c; decide
  split
  · subst c; decide
  split
  · subst c; decide
  · exact Bool.and_true _

theorem readable_indent (depth : Nat) : Readable (indent depth) := by
  rw [indent, Readable, Text.within_ofList]
  intro c hc
  rw [List.eq_of_mem_replicate hc]
  decide

/-! ### Documents -/

/-- The names and the values of some attributes are readable. -/
def AttributesReadable (attributes : List (String × String)) : Prop :=
  ∀ a ∈ attributes, Readable a.1 ∧ Readable a.2

section

variable {key value : String} {attributes attributes' : List (String × String)}

theorem attributesReadable_nil : AttributesReadable [] := fun _ h ↦ absurd h List.not_mem_nil

theorem attributesReadable_cons : AttributesReadable ((key, value) :: attributes) ↔
    (Readable key ∧ Readable value) ∧ AttributesReadable attributes :=
  List.forall_mem_cons

theorem attributesReadable_singleton :
    AttributesReadable [(key, value)] ↔ Readable key ∧ Readable value :=
  List.forall_mem_singleton

theorem attributesReadable_append : AttributesReadable (attributes ++ attributes') ↔
    AttributesReadable attributes ∧ AttributesReadable attributes' :=
  List.forall_mem_append

end

mutual

/-- The names, the values and the texts of an element are readable. -/
def Element.Readable : Element → Prop
  | .text tag attributes text =>
    Xml.Readable tag ∧ AttributesReadable attributes ∧ Xml.Readable text
  | .closed tag attributes => Xml.Readable tag ∧ AttributesReadable attributes
  | .nested tag attributes children =>
    Xml.Readable tag ∧ AttributesReadable attributes ∧ AllReadable children

def AllReadable : List Element → Prop
  | [] => True
  | e :: r => e.Readable ∧ AllReadable r

end

theorem allReadable_iff {l : List Element} : AllReadable l ↔ ∀ e ∈ l, e.Readable := by
  induction l with
  | nil => simp [AllReadable]
  | cons e r ih => rw [AllReadable, List.forall_mem_cons, ih]

theorem allReadable_map {A : Type} {l : List A} {element : A → Element} :
    AllReadable (l.map element) ↔ ∀ a ∈ l, (element a).Readable := by
  rw [allReadable_iff, List.forall_mem_map]

theorem readable_head {tag : String} {attributes : List (String × String)} :
    Readable (head tag attributes) ↔ Readable tag ∧ AttributesReadable attributes := by
  have hmarks : Readable " " ∧ Readable "=\"" ∧ Readable "\"" := by decide
  rw [head, readable_append, Readable, Readable, Text.within_join, List.forall_mem_map]
  refine and_congr_right fun _ ↦ forall₂_congr fun a _ ↦ ?_
  show Readable (" " ++ a.1 ++ "=\"" ++ escape a.2 ++ "\"") ↔ _
  simp only [readable_append, readable_escape, hmarks, true_and, and_true]

mutual

/-- **The lines of an element are readable exactly if it is.** -/
theorem readable_lines (depth : Nat) :
    (e : Element) → ((∀ line ∈ e.lines depth, Readable line) ↔ e.Readable)
  | .text tag attributes text => by
    have hmarks : Readable "<" ∧ Readable ">" ∧ Readable "</" := by decide
    rw [Element.lines, List.forall_mem_singleton, Element.Readable]
    simp only [readable_append, readable_escape, readable_head, readable_indent, hmarks, true_and,
      and_true]
    tauto
  | .closed tag attributes => by
    have hmarks : Readable "<" ∧ Readable "/>" := by decide
    rw [Element.lines, List.forall_mem_singleton, Element.Readable]
    simp only [readable_append, readable_head, readable_indent, hmarks, true_and, and_true]
  | .nested tag attributes children => by
    have hmarks : Readable "<" ∧ Readable ">" ∧ Readable "</" := by decide
    rw [Element.lines, List.forall_mem_cons, List.forall_mem_append, List.forall_mem_singleton,
      Element.Readable, readable_linesOfAll (depth + 1) children]
    simp only [readable_append, readable_head, readable_indent, hmarks, true_and, and_true]
    tauto

theorem readable_linesOfAll (depth : Nat) :
    (l : List Element) → ((∀ line ∈ linesOfAll depth l, Readable line) ↔ AllReadable l)
  | [] => by simp [linesOfAll, AllReadable]
  | e :: r => by
    rw [linesOfAll, List.forall_mem_append, AllReadable, readable_lines depth e,
      readable_linesOfAll depth r]

end

/-- **A document is readable exactly if its root is.** -/
theorem readable_document {root : Element} : Readable (document root) ↔ root.Readable := by
  have hmarks : Readable declaration ∧ Readable "\n" := by decide
  rw [document, Readable, Text.within_join, List.forall_mem_map, ← readable_lines 0,
    List.forall_mem_cons]
  show Readable (declaration ++ "\n") ∧ (∀ line ∈ root.lines 0, Readable (line ++ "\n")) ↔ _
  simp only [readable_append, hmarks, true_and, and_true]

end Xml

open Xml (Readable)

/-! ### Letters and numbers -/

namespace Xml

theorem admits_of_isAlphanum {c : Char} (h : c.isAlphanum = true) : admits c = true := by
  have hcode : c.val.toNat = c.toNat := rfl
  simp only [Char.isAlphanum, Char.isAlpha, Char.isUpper, Char.isLower, Char.isDigit,
    Bool.or_eq_true, Bool.and_eq_true, decide_eq_true_eq, ge_iff_le, UInt32.le_iff_toNat_le,
    Char.reduceVal, UInt32.reduceToNat, hcode] at h
  simp only [admits, Bool.or_eq_true, Bool.and_eq_true, decide_eq_true_eq]
  omega

theorem admits_of_isNumeral {c : Char} (h : Scalar.isNumeral c = true) : admits c = true := by
  simp only [Scalar.isNumeral, Bool.or_eq_true, beq_iff_eq] at h
  rcases h with (h | rfl) | rfl
  · exact admits_of_isAlphanum h
  · decide
  · decide

theorem readable_text (x : Scalar) : Readable x.text :=
  x.within_text.mono fun _ ↦ admits_of_isNumeral

theorem readable_toString_nat (n : Nat) : Readable (toString n) :=
  fun _ hc ↦ admits_of_isNumeral (Scalar.numeral_of_mem_toString_nat hc)

theorem readable_toString_int (i : Int) : Readable (toString i) :=
  fun _ hc ↦ admits_of_isNumeral (Scalar.numeral_of_mem_toString_int hc)

/-- The hexadecimal digits of a color. -/
theorem readable_hex (c : Color) : Readable c.hex := by
  have hbyte : ∀ b : UInt8, ∀ d ∈ Color.byteHex b, admits d = true := fun b d hd ↦ by
    have hdigit : ∀ n, n < 16 → admits (Nat.digitChar n).toUpper = true := by decide
    have hlt := b.toNat_lt
    rcases List.mem_cons.1 hd with rfl | hd
    · exact hdigit _ (by omega)
    · exact List.mem_singleton.1 hd ▸ hdigit _ (Nat.mod_lt _ (by decide))
  have hmark : admits '#' = true := by decide
  rw [Color.hex, Color.rgbHex, Readable]
  split
  · rw [Text.within_ofList, List.forall_mem_cons, List.forall_mem_append, List.forall_mem_append]
    exact ⟨hmark, ⟨hbyte _, hbyte _⟩, hbyte _⟩
  · rw [Text.within_ofList, List.forall_mem_cons, List.forall_mem_append, List.forall_mem_append,
      List.forall_mem_append]
    exact ⟨hmark, ⟨⟨hbyte _, hbyte _⟩, hbyte _⟩, hbyte _⟩

end Xml

open Xml (Readable AttributesReadable)

/-! ### Drawables -/

namespace Drawable

theorem readable_lengthText (x : Scalar) : Readable (lengthText x) :=
  Xml.readable_append.2 ⟨Xml.readable_text x, by decide⟩

theorem readable_shape {children : List Xml.Element} :
    (shape children).Readable ↔ Xml.AllReadable children := by
  have hattributes : AttributesReadable
      [("xmlns:android", androidNamespace), ("android:shape", "rectangle")] :=
    Xml.attributesReadable_cons.2
      ⟨by decide, Xml.attributesReadable_singleton.2 (by decide)⟩
  have htag : Readable "shape" := by decide
  rw [shape, Xml.Element.Readable]
  simp only [htag, hattributes, true_and]

/-- **Every file of a drawable is readable.** -/
theorem readable_xml {d : Drawable} {text : String} (h : d.xml? = some text) : Readable text := by
  obtain ⟨root, hroot, rfl⟩ := Option.map_eq_some_iff.1 h
  rw [Xml.readable_document]
  cases d with
  | image source => exact absurd hroot (by simp [element?])
  | bordered fill stroke radius =>
    obtain rfl := Option.some.inj hroot
    rw [readable_shape, Xml.allReadable_iff]
    refine List.forall_mem_append.2 ⟨List.forall_mem_append.2 ⟨?_, ?_⟩, ?_⟩
    · refine List.forall_mem_map.2 fun c _ ↦ ⟨by decide, ?_⟩
      exact Xml.attributesReadable_singleton.2 ⟨by decide, Xml.readable_hex c⟩
    · refine List.forall_mem_map.2 fun stroke _ ↦ ⟨by decide, ?_⟩
      exact Xml.attributesReadable_cons.2 ⟨⟨by decide, readable_lengthText stroke.width⟩,
        Xml.attributesReadable_singleton.2 ⟨by decide, Xml.readable_hex stroke.color⟩⟩
    · split
      · refine List.forall_mem_singleton.2 ⟨by decide, ?_⟩
        exact Xml.attributesReadable_singleton.2 ⟨by decide, readable_lengthText radius⟩
      · exact fun _ he ↦ absurd he List.not_mem_nil
  | gradient g =>
    obtain rfl := Option.some.inj hroot
    rw [readable_shape, Xml.allReadable_iff, List.forall_mem_singleton]
    refine ⟨by decide, Xml.attributesReadable_append.2
      ⟨Xml.attributesReadable_append.2 ⟨?_, ?_⟩, ?_⟩⟩
    · exact Xml.attributesReadable_cons.2 ⟨by decide, Xml.attributesReadable_cons.2
        ⟨⟨by decide, Xml.readable_toString_int _⟩,
          Xml.attributesReadable_singleton.2 ⟨by decide, Xml.readable_hex g.start⟩⟩⟩
    · refine fun a ha ↦ ?_
      obtain ⟨c, -, rfl⟩ := List.mem_map.1 ha
      exact ⟨(by decide : Readable "android:centerColor"), Xml.readable_hex c⟩
    · exact Xml.attributesReadable_singleton.2 ⟨by decide, Xml.readable_hex g.finish⟩

end Drawable

/-! ### Tables -/

namespace ResourceTables

/-- **Backslashes hide nothing** that is not allowed: only a line end is written as a letter. -/
theorem readable_escapeString {s : String} : Readable (escapeString s) ↔ Readable s := by
  have hinner : ∀ c, (escapeInner c).all Xml.admits = Xml.admits c := fun c ↦ by
    rw [escapeInner]
    split
    · exact Bool.and_true _
    split
    · subst c; decide
    · exact Bool.and_true _
  rw [Readable, Readable, Text.Within, Text.Within, toList_escapeString]
  cases s.toList with
  | nil => rfl
  | cons c r =>
    dsimp only
    rw [List.forall_mem_append, Xml.readable_flatMap hinner, List.forall_mem_cons]
    refine and_congr_left fun _ ↦ ?_
    rw [← List.all_eq_true, ← Bool.eq_iff_iff]
    split
    · rename_i hc
      rcases hc with rfl | rfl <;> decide
    · exact hinner c

variable {t : ResourceTables}

theorem readable_resources {children : List Xml.Element} :
    Readable (resources children) ↔ ∀ e ∈ children, e.Readable := by
  have htag : Readable "resources" := by decide
  rw [resources, Xml.readable_document, Xml.Element.Readable, ← Xml.allReadable_iff]
  simp only [htag, Xml.attributesReadable_nil, true_and]

theorem readable_stringsXml :
    Readable t.stringsXml ↔ ∀ e ∈ t.strings, Readable e.1 ∧ Readable e.2 := by
  have hwords : Readable "string" ∧ Readable "name" := by decide
  rw [stringsXml, readable_resources, List.forall_mem_map]
  refine forall₂_congr fun e _ ↦ ?_
  simp only [Xml.Element.Readable, Xml.attributesReadable_singleton, readable_escapeString, hwords,
    true_and]

theorem readable_arraysXml : Readable t.arraysXml ↔
    ∀ e ∈ t.arrays, Readable e.1 ∧ ∀ item ∈ e.2, Readable item := by
  have hwords : Readable "string-array" ∧ Readable "item" ∧ Readable "name" := by decide
  rw [arraysXml, readable_resources, List.forall_mem_map]
  refine forall₂_congr fun e _ ↦ ?_
  simp only [Xml.Element.Readable, Xml.allReadable_map, Xml.attributesReadable_nil,
    Xml.attributesReadable_singleton, readable_escapeString, hwords, true_and]

theorem readable_simple {tag : String} {more : List (String × String)} (htag : Readable tag)
    (hmore : AttributesReadable more) {entries : List (String × String)} :
    Readable (simple tag more entries) ↔ ∀ e ∈ entries, Readable e.1 ∧ Readable e.2 := by
  have hname : Readable "name" := by decide
  rw [simple, readable_resources, List.forall_mem_map]
  refine forall₂_congr fun e _ ↦ ?_
  simp only [Xml.Element.Readable, Xml.attributesReadable_cons, htag, hname, hmore, true_and,
    and_true]

theorem readable_stylesXml : Readable t.stylesXml ↔ ∀ s ∈ t.styles,
    (Readable s.name ∧ ∀ p, s.parent = some p → Readable p) ∧ AttributesReadable s.attributes := by
  have hwords : Readable "style" ∧ Readable "name" ∧ Readable "parent" ∧ Readable "item" := by
    decide
  rw [stylesXml, readable_resources, List.forall_mem_map]
  refine forall₂_congr fun s _ ↦ ?_
  have hparent : AttributesReadable (s.parent.toList.map fun p ↦ ("parent", p)) ↔
      ∀ p, s.parent = some p → Readable p := by
    simp only [AttributesReadable, List.forall_mem_map, Option.mem_toList, hwords, true_and]
  simp only [Xml.Element.Readable, Xml.allReadable_map, Xml.attributesReadable_cons, hparent,
    Xml.attributesReadable_nil, hwords, true_and, and_true]
  rfl

/-! ### Files of tables -/

variable (t)

/-- The texts that are written to a file of values as they are, but for escapes. -/
def textsIn (file : String) : List String :=
  if file = "strings.xml" then t.strings.map Prod.snd
  else if file = "arrays.xml" then t.arrays.flatMap Prod.snd
  else if file = "fonts.xml" then t.fonts.map Prod.snd
  else []

/-- **Tables in which everything is readable** but the strings, the items of arrays and the font
families. -/
structure Framed : Prop where
  strings : ∀ e ∈ t.strings, Readable e.1
  arrays : ∀ e ∈ t.arrays, Readable e.1
  fonts : ∀ e ∈ t.fonts, Readable e.1
  colors : ∀ e ∈ t.colors, Readable e.1 ∧ Readable e.2
  dimens : ∀ e ∈ t.dimens, Readable e.1 ∧ Readable e.2
  styles : ∀ s ∈ t.styles,
    (Readable s.name ∧ ∀ p, s.parent = some p → Readable p) ∧ AttributesReadable s.attributes

variable {t}

/-- The files of values are those of the tables that are not empty. -/
theorem valueFile_cases {file : String × String} (h : file ∈ t.valueFiles) :
    file = ("strings.xml", t.stringsXml) ∨ file = ("arrays.xml", t.arraysXml) ∨
      file = ("colors.xml", simple "color" [] t.colors) ∨
      file = ("dimens.xml", simple "dimen" [] t.dimens) ∨
      file = ("fonts.xml", simple "string" [("translatable", "false")] t.fonts) ∨
      file = ("styles.xml", t.stylesXml) := by
  have hsome : ∀ {present : Bool} {e : String × String},
      file ∈ (if present then [e] else []) → file = e := fun {present e} hmem ↦ by
    cases present
    · exact absurd hmem List.not_mem_nil
    · exact List.mem_singleton.1 hmem
  rw [valueFiles] at h
  simp only [List.mem_append] at h
  rcases h with ((((h | h) | h) | h) | h) | h
  · exact .inl (hsome h)
  · exact .inr (.inl (hsome h))
  · exact .inr (.inr (.inl (hsome h)))
  · exact .inr (.inr (.inr (.inl (hsome h))))
  · exact .inr (.inr (.inr (.inr (.inl (hsome h)))))
  · exact .inr (.inr (.inr (.inr (.inr (hsome h)))))

/-- Where there are texts there is a file for them. -/
theorem exists_valueFile {file text : String} (h : text ∈ t.textsIn file) :
    ∃ content, (file, content) ∈ t.valueFiles := by
  have hnonempty : ∀ {A : Type} {l : List A}, l ≠ [] → l.isEmpty = false := fun hl ↦
    List.isEmpty_eq_false_iff.2 hl
  rw [textsIn] at h
  split at h
  · subst file
    have hne : t.strings ≠ [] := fun hnil ↦ by simp [hnil] at h
    exact ⟨t.stringsXml, by simp [valueFiles, hnonempty hne]⟩
  split at h
  · subst file
    have hne : t.arrays ≠ [] := fun hnil ↦ by simp [hnil] at h
    exact ⟨t.arraysXml, by simp [valueFiles, hnonempty hne]⟩
  split at h
  · subst file
    have hne : t.fonts ≠ [] := fun hnil ↦ by simp [hnil] at h
    exact ⟨simple "string" [("translatable", "false")] t.fonts, by
      simp [valueFiles, hnonempty hne]⟩
  · exact absurd h List.not_mem_nil

/-- **A file of values is readable exactly if its texts are.** -/
theorem Framed.readable_iff (h : t.Framed) {file : String × String} (hfile : file ∈ t.valueFiles) :
    Readable file.2 ↔ ∀ text ∈ t.textsIn file.1, Readable text := by
  have hnone : ∀ {p : Prop}, p → (p ↔ ∀ text ∈ ([] : List String), Readable text) := fun hp ↦
    iff_of_true hp fun _ htext ↦ absurd htext List.not_mem_nil
  rcases valueFile_cases hfile with rfl | rfl | rfl | rfl | rfl | rfl
  · rw [readable_stringsXml, textsIn, if_pos rfl, List.forall_mem_map]
    exact forall₂_congr fun e he ↦ and_iff_right (h.strings e he)
  · dsimp only
    rw [readable_arraysXml, textsIn, if_neg (by decide), if_pos rfl]
    simp only [List.mem_flatMap]
    exact ⟨fun hall text ⟨e, he, htext⟩ ↦ (hall e he).2 text htext,
      fun hall e he ↦ ⟨h.arrays e he, fun item hitem ↦ hall item ⟨e, he, hitem⟩⟩⟩
  · exact hnone ((readable_simple (by decide) Xml.attributesReadable_nil).2 h.colors)
  · exact hnone ((readable_simple (by decide) Xml.attributesReadable_nil).2 h.dimens)
  · dsimp only
    rw [readable_simple (by decide) (Xml.attributesReadable_singleton.2 (by decide)), textsIn,
      if_neg (by decide), if_neg (by decide), if_pos rfl, List.forall_mem_map]
    exact forall₂_congr fun e he ↦ and_iff_right (h.fonts e he)
  · exact hnone (readable_stylesXml.2 h.styles)

end ResourceTables

end ViewCompiler
