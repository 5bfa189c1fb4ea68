import Mathlib.Data.List.Basic
import ViewCompiler.Xml

/-!
# Reading documents

`Xml.read?` takes a document apart into its tags, each start tag with the text between it and the
next tag. It knows nothing of how documents are laid out in lines. It cuts the text where a tag
starts and a tag at the quotes, and undoes the five entities in texts and in the values of
attributes.

The main statement is `Xml.read?_document`: **every document reads as the tags of its elements**,
and their texts and the values of their attributes are what was written, whatever these are. What
carries it is that an escaped text has none of the characters that a document is cut at
(`Xml.not_isMark_of_mem_escape`).
-/

namespace ViewCompiler

namespace Xml

/-! ### Entities -/

/-- Undoes the five entities. There are no others. -/
def unescape? : List Char → Option (List Char)
  | [] => some []
  | '&' :: 'l' :: 't' :: ';' :: r => (unescape? r).map ('<' :: ·)
  | '&' :: 'g' :: 't' :: ';' :: r => (unescape? r).map ('>' :: ·)
  | '&' :: 'a' :: 'm' :: 'p' :: ';' :: r => (unescape? r).map ('&' :: ·)
  | '&' :: 'a' :: 'p' :: 'o' :: 's' :: ';' :: r => (unescape? r).map ('\'' :: ·)
  | '&' :: 'q' :: 'u' :: 'o' :: 't' :: ';' :: r => (unescape? r).map ('"' :: ·)
  | c :: r => if c = '&' then none else (unescape? r).map (c :: ·)

theorem unescape?_cons {c : Char} (h : c ≠ '&') (r : List Char) :
    unescape? (c :: r) = (unescape? r).map (c :: ·) := by
  rw [unescape?, if_neg h]
  all_goals exact fun _ heq ↦ absurd heq h

theorem unescape?_escapeChar (c : Char) (r : List Char) :
    unescape? (escapeChar c ++ r) = (unescape? r).map (c :: ·) := by
  unfold escapeChar
  split
  · subst c; rfl
  split
  · subst c; rfl
  split
  · subst c; rfl
  split
  · subst c; rfl
  split
  · subst c; rfl
  · exact unescape?_cons ‹_› r

/-- **Escaped text is read as it was.** -/
theorem unescape?_escape (s : String) : unescape? (escape s).toList = some s.toList := by
  rw [escape, String.toList_ofList]
  induction s.toList with
  | nil => rfl
  | cons c r ih => rw [List.flatMap_cons, unescape?_escapeChar, ih, Option.map_some]

theorem unescape?_of_not_mem {cs : List Char} (h : '&' ∉ cs) : unescape? cs = some cs := by
  induction cs with
  | nil => rfl
  | cons c r ih =>
    obtain ⟨hc, hr⟩ := not_or.1 (mt List.mem_cons.2 h)
    rw [unescape?_cons (Ne.symm hc), ih hr, Option.map_some]

/-- What a document is cut at. -/
def isMark (c : Char) : Bool := c == '<' || c == '>' || c == '"'

theorem not_isMark_of_mem_escapeChar {c d : Char} (h : c ∈ escapeChar d) : isMark c = false := by
  have hentities : ∀ entity ∈ ["&lt;", "&gt;", "&amp;", "&apos;", "&quot;"],
      entity.toList.any isMark = false := by decide
  have hentity : ∀ entity ∈ ["&lt;", "&gt;", "&amp;", "&apos;", "&quot;"],
      c ∈ entity.toList → isMark c = false := fun entity hmem hc ↦
    Bool.eq_false_iff.2 (List.any_eq_false.1 (hentities entity hmem) c hc)
  unfold escapeChar at h
  split at h
  · exact hentity _ (by simp) h
  split at h
  · exact hentity _ (by simp) h
  split at h
  · exact hentity _ (by simp) h
  split at h
  · exact hentity _ (by simp) h
  split at h
  · exact hentity _ (by simp) h
  · simp_all [isMark]

theorem not_isMark_of_mem_escape {s : String} {c : Char} (h : c ∈ (escape s).toList) :
    isMark c = false := by
  rw [escape, String.toList_ofList, List.mem_flatMap] at h
  obtain ⟨d, -, hd⟩ := h
  exact not_isMark_of_mem_escapeChar hd

theorem not_mem_escape {c : Char} (hc : isMark c) (s : String) : c ∉ (escape s).toList :=
  fun h ↦ absurd hc (by simp [not_isMark_of_mem_escape h])

/-! ### Tags -/

/-- A tag of a document, with the text after it if it is a start tag. -/
inductive Event where
  | declaration
  | start (tag : String) (attributes : List (String × String)) (text : String)
  | stop (tag : String)
  | closed (tag : String) (attributes : List (String × String))
deriving DecidableEq

/-- A character of a tag's or an attribute's name. -/
def isNameChar (c : Char) : Bool := c.isAlphanum || c == '-' || c == '_' || c == ':'

/-- What comes after the name in a tag, cut at the quotes: the attributes, and whether the element
is closed at once. -/
def readAttributes? : List (List Char) → Option (List (String × String) × Bool)
  | [[]] => some ([], false)
  | [['/']] => some ([], true)
  | (' ' :: key) :: value :: rest =>
    if key.getLast? = some '=' then do
      let value ← unescape? value
      let (attributes, isClosed) ← readAttributes? rest
      some ((String.ofList key.dropLast, String.ofList value) :: attributes, isClosed)
    else none
  | _ => none

/-- A tag, from what is between its angle brackets and the text after it. -/
def readTag? (content text : List Char) : Option Event :=
  match content with
  | '?' :: _ => some .declaration
  | '/' :: tag => some (.stop (String.ofList tag))
  | _ => do
    let tag := String.ofList (content.takeWhile isNameChar)
    let (attributes, isClosed) ← readAttributes? ((content.dropWhile isNameChar).splitOn '"')
    if isClosed then
      some (.closed tag attributes)
    else
      (unescape? text).map fun text ↦ .start tag attributes (String.ofList text)

/-- A tag, from what is between its start and the start of the next one. -/
def readPiece? (piece : List Char) : Option Event :=
  match piece.dropWhile (· != '>') with
  | [] => none
  | _ :: text => readTag? (piece.takeWhile (· != '>')) text

/-- The tags of a text. -/
def readAll? (cs : List Char) : Option (List Event) := (cs.splitOn '<').tail.mapM readPiece?

/-- Takes a document apart. -/
def read? (text : String) : Option (List Event) := readAll? text.toList

/-! ### Pieces -/

/-- The text in front of the first tag. -/
def lead (cs : List Char) : List Char := cs.takeWhile (· != '<')

theorem lead_append {a : List Char} (ha : '<' ∉ a) (cs : List Char) :
    lead (a ++ cs) = a ++ lead cs :=
  List.takeWhile_append_of_pos fun _ hc ↦ bne_iff_ne.2 fun h ↦ ha (h ▸ hc)

theorem lead_cons_tag (cs : List Char) : lead ('<' :: cs) = [] := rfl

theorem splitOn_append {c : Char} {a : List Char} (ha : c ∉ a) (cs : List Char) :
    (a ++ cs).splitOn c = (cs.splitOn c).modifyHead (a ++ ·) := by
  induction a with
  | nil => exact (congrFun List.modifyHead_id _).symm
  | cons d a ih =>
    obtain ⟨hd, ha⟩ := not_or.1 (mt List.mem_cons.2 ha)
    have hne : (d == c) = false := beq_false_of_ne (Ne.symm hd)
    rw [List.cons_append, List.splitOn, List.splitOnP_cons_eq_if_modifyHead, hne, if_neg (by simp)]
    rw [← List.splitOn, ih ha, List.modifyHead_modifyHead]
    rfl

theorem splitOn_append_cons {c : Char} {a : List Char} (ha : c ∉ a) (cs : List Char) :
    (a ++ c :: cs).splitOn c = a :: cs.splitOn c := by
  have hall : ∀ d ∈ a, (d == c) = false := fun d hd ↦ beq_false_of_ne fun h ↦ ha (h ▸ hd)
  exact List.splitOnP_append_cons_of_forall_mem hall c (beq_self_eq_true c) cs

theorem splitOn_tag (cs : List Char) : cs.splitOn '<' = lead cs :: (cs.splitOn '<').tail := by
  induction cs with
  | nil => rfl
  | cons c cs ih =>
    by_cases hc : c = '<'
    · subst c
      exact splitOn_append_cons List.not_mem_nil cs
    · have hc' : '<' ∉ [c] := by simpa using Ne.symm hc
      rw [← List.singleton_append, splitOn_append hc', lead_append hc', ih]
      rfl

/-- Text in front of the first tag is passed over. -/
theorem readAll?_append {a : List Char} (ha : '<' ∉ a) (cs : List Char) :
    readAll? (a ++ cs) = readAll? cs := by
  rw [readAll?, splitOn_append ha, List.tail_modifyHead, readAll?]

/-- **One more tag** is read on its own, and what comes after it is read as it would be alone. -/
theorem readAll?_tag {content : List Char} (hcontent : '<' ∉ content) (cs : List Char) :
    readAll? ('<' :: (content ++ cs)) =
      (readPiece? (content ++ lead cs)).bind fun e ↦ (readAll? cs).map (e :: ·) := by
  have hsplit : ('<' :: (content ++ cs)).splitOn '<' =
      [] :: (content ++ lead cs) :: (cs.splitOn '<').tail := by
    rw [← List.nil_append ('<' :: _), splitOn_append_cons List.not_mem_nil,
      splitOn_append hcontent, splitOn_tag cs]
    rfl
  rw [readAll?, hsplit, List.tail_cons, List.mapM_cons, readAll?]
  simp only [Option.bind_eq_bind, Option.pure_def, Option.map_eq_bind, Function.comp_def]

theorem readPiece?_append {content : List Char} (hcontent : '>' ∉ content) (text : List Char) :
    readPiece? (content ++ '>' :: text) = readTag? content text := by
  have hall : ∀ c ∈ content, (c != '>') = true :=
    fun c hc ↦ bne_iff_ne.2 fun h ↦ hcontent (h ▸ hc)
  rw [readPiece?, List.dropWhile_append_of_pos hall, List.takeWhile_append_of_pos hall]
  simp

/-- **A whole tag.** Its text ends where the next tag starts. -/
theorem readAll?_whole {content : List Char} (hcontent : '<' ∉ content) (hend : '>' ∉ content)
    (cs : List Char) :
    readAll? ('<' :: (content ++ '>' :: cs)) =
      (readTag? content (lead cs)).bind fun e ↦ (readAll? cs).map (e :: ·) := by
  have htag : '<' ∉ content ++ ['>'] := by simpa using hcontent
  rw [List.append_cons, readAll?_tag htag, List.append_assoc, List.singleton_append,
    readPiece?_append hend]

/-! ### Names -/

/-- A name that is read to its end, and no further. -/
def IsName (s : String) : Prop := s ≠ "" ∧ ∀ c ∈ s.toList, isNameChar c = true

instance (s : String) : Decidable (IsName s) :=
  decidable_of_iff (s ≠ "" ∧ s.toList.all isNameChar = true) (by rw [IsName, List.all_eq_true])

theorem IsName.not_mem {s : String} (h : IsName s) {c : Char} (hc : isNameChar c = false) :
    c ∉ s.toList :=
  fun hmem ↦ absurd (h.2 c hmem) (by simp [hc])

/-- The text of an attribute. -/
def attributeChars (a : String × String) : List Char :=
  ' ' :: (a.1.toList ++ ['=']) ++ '"' :: ((escape a.2).toList ++ ['"'])

theorem toList_head (tag : String) (attributes : List (String × String)) :
    (head tag attributes).toList = tag.toList ++ attributes.flatMap attributeChars := by
  rw [head, String.toList_append, String.toList_join, List.flatMap_map]
  congr 1
  exact List.flatMap_congr fun a _ ↦ by simp [attributeChars]

/-- **Attributes are read as they were**, with whatever closes the tag. -/
theorem readAttributes?_flatMap {attributes : List (String × String)}
    (h : ∀ a ∈ attributes, IsName a.1) (rest : List Char) :
    readAttributes? ((attributes.flatMap attributeChars ++ rest).splitOn '"') =
      (readAttributes? (rest.splitOn '"')).map fun (more, isClosed) ↦
        (attributes ++ more, isClosed) := by
  induction attributes with
  | nil => simp
  | cons a attributes ih =>
    obtain ⟨hname, h⟩ := List.forall_mem_cons.1 h
    have hkey : '"' ∉ ' ' :: (a.1.toList ++ ['=']) := by
      simpa using hname.not_mem (c := '"') (by decide)
    have hsplit : ((a :: attributes).flatMap attributeChars ++ rest).splitOn '"' =
        (' ' :: (a.1.toList ++ ['='])) :: (escape a.2).toList ::
          (attributes.flatMap attributeChars ++ rest).splitOn '"' := by
      rw [← splitOn_append_cons (not_mem_escape (by decide) _), ← splitOn_append_cons hkey]
      simp [attributeChars]
    rw [hsplit, readAttributes?, ih h, unescape?_escape]
    cases readAttributes? (rest.splitOn '"') <;> simp

/-- A name is read to its end if what comes after it cannot be part of one. -/
theorem readTag?_name {tag : String} (htag : IsName tag) {rest : List Char}
    (hrest : ∀ c ∈ rest.head?, isNameChar c = false) (text : List Char) :
    readTag? (tag.toList ++ rest) text =
      (readAttributes? (rest.splitOn '"')).bind fun (attributes, isClosed) ↦
        if isClosed then some (.closed tag attributes)
        else (unescape? text).map fun text ↦ .start tag attributes (String.ofList text) := by
  have hname : (tag.toList ++ rest).takeWhile isNameChar = tag.toList := by
    rw [List.takeWhile_append_of_pos htag.2]
    cases rest <;> simp_all
  have hafter : (tag.toList ++ rest).dropWhile isNameChar = rest := by
    rw [List.dropWhile_append_of_pos htag.2]
    cases rest <;> simp_all
  obtain ⟨c, r, hcr⟩ : ∃ c r, tag.toList = c :: r :=
    List.exists_cons_of_ne_nil fun hnil ↦ htag.1 (String.toList_injective hnil)
  have hc : isNameChar c = true := htag.2 c (hcr ▸ List.mem_cons_self)
  rw [readTag?, hname, hafter, String.ofList_toList]
  · rfl
  · rintro tail h
    rw [hcr, List.cons_append, List.cons.injEq] at h
    exact absurd hc (by rw [h.1]; decide)
  · rintro tail h
    rw [hcr, List.cons_append, List.cons.injEq] at h
    exact absurd hc (by rw [h.1]; decide)

section head

variable {tag : String} {attributes : List (String × String)} (htag : IsName tag)
  (hattributes : ∀ a ∈ attributes, IsName a.1)

include htag hattributes

/-- A tag with attributes, and with what closes it. -/
theorem readTag?_head (rest : List Char) (hrest : ∀ c ∈ rest.head?, isNameChar c = false)
    (text : List Char) :
    readTag? ((head tag attributes).toList ++ rest) text =
      (readAttributes? (rest.splitOn '"')).bind fun (more, isClosed) ↦
        if isClosed then some (.closed tag (attributes ++ more))
        else (unescape? text).map fun text ↦
          .start tag (attributes ++ more) (String.ofList text) := by
  have hhead : ∀ c ∈ (attributes.flatMap attributeChars ++ rest).head?, isNameChar c = false := by
    cases attributes with
    | nil => exact hrest
    | cons a attributes => simp [attributeChars]; decide
  rw [toList_head, List.append_assoc, readTag?_name htag hhead,
    readAttributes?_flatMap hattributes]
  cases readAttributes? (rest.splitOn '"') <;> rfl

theorem readTag?_start (text : List Char) :
    readTag? (head tag attributes).toList text =
      (unescape? text).map fun text ↦ .start tag attributes (String.ofList text) := by
  have h := readTag?_head htag hattributes [] (by simp) text
  simpa [readAttributes?] using h

theorem readTag?_closed (text : List Char) :
    readTag? ((head tag attributes).toList ++ ['/']) text = some (.closed tag attributes) := by
  have hslash : isNameChar '/' = false := by decide
  have h := readTag?_head htag hattributes ['/'] (by simpa using hslash) text
  have hsplit : ['/'].splitOn '"' = [['/']] := by decide
  simpa [readAttributes?, hsplit] using h

/-- No tag ends early. -/
theorem not_mem_head {c : Char} (hc : c = '<' ∨ c = '>') : c ∉ (head tag attributes).toList := by
  have hname : isNameChar c = false := by rcases hc with rfl | rfl <;> decide
  have hmark : isMark c := by rcases hc with rfl | rfl <;> decide
  have hother : c ∉ [' ', '=', '"'] := by rcases hc with rfl | rfl <;> decide
  rw [toList_head, List.mem_append, List.mem_flatMap]
  rintro (h | ⟨a, ha, h⟩)
  · exact htag.not_mem hname h
  · have hkey : c ∉ a.1.toList := (hattributes a ha).not_mem hname
    have hvalue : c ∉ (escape a.2).toList := not_mem_escape hmark a.2
    simp_all [attributeChars]

theorem readAll?_start (cs : List Char) :
    readAll? ('<' :: ((head tag attributes).toList ++ '>' :: cs)) =
      (unescape? (lead cs)).bind fun text ↦
        (readAll? cs).map (.start tag attributes (String.ofList text) :: ·) := by
  rw [readAll?_whole (not_mem_head htag hattributes (.inl rfl))
    (not_mem_head htag hattributes (.inr rfl)), readTag?_start htag hattributes]
  cases unescape? (lead cs) <;> rfl

theorem readAll?_closed (cs : List Char) :
    readAll? ('<' :: ((head tag attributes).toList ++ '/' :: '>' :: cs)) =
      (readAll? cs).map (.closed tag attributes :: ·) := by
  have hmark : ∀ c, c = '<' ∨ c = '>' → c ∉ (head tag attributes).toList ++ ['/'] := by
    intro c hc hmem
    rcases List.mem_append.1 hmem with h | h
    · exact not_mem_head htag hattributes hc h
    · rcases hc with rfl | rfl <;> exact absurd h (by decide)
  rw [List.append_cons, readAll?_whole (hmark _ (.inl rfl)) (hmark _ (.inr rfl)),
    readTag?_closed htag hattributes]
  rfl

omit hattributes in
theorem readAll?_stop (cs : List Char) :
    readAll? ('<' :: '/' :: (tag.toList ++ '>' :: cs)) = (readAll? cs).map (.stop tag :: ·) := by
  have hmark : ∀ c, c = '<' ∨ c = '>' → c ∉ '/' :: tag.toList := by
    intro c hc hmem
    rcases List.mem_cons.1 hmem with h | h
    · rcases hc with rfl | rfl <;> exact absurd h (by decide)
    · exact htag.not_mem (by rcases hc with rfl | rfl <;> decide) h
  rw [← List.cons_append, readAll?_whole (hmark _ (.inl rfl)) (hmark _ (.inr rfl)), readTag?,
    String.ofList_toList]
  rfl

end head

/-! ### Elements -/

mutual

/-- The tags and the attributes of an element have names that can be read. -/
def Element.IsNamed : Element → Prop
  | .text tag attributes _ => IsName tag ∧ ∀ a ∈ attributes, IsName a.1
  | .closed tag attributes => IsName tag ∧ ∀ a ∈ attributes, IsName a.1
  | .nested tag attributes children =>
    IsName tag ∧ (∀ a ∈ attributes, IsName a.1) ∧ AllNamed children

def AllNamed : List Element → Prop
  | [] => True
  | e :: r => e.IsNamed ∧ AllNamed r

end

theorem allNamed_map {A : Type} {l : List A} {element : A → Element}
    (h : ∀ a ∈ l, (element a).IsNamed) : AllNamed (l.map element) := by
  induction l with
  | nil => trivial
  | cons a l ih =>
    obtain ⟨ha, hl⟩ := List.forall_mem_cons.1 h
    exact ⟨ha, ih hl⟩

mutual

/-- The tags of an element at a depth. Between a start tag and the elements inside is the rest of
its line, and the blanks in front of the next one. -/
def Element.events (depth : Nat) : Element → List Event
  | .text tag attributes text => [.start tag attributes text, .stop tag]
  | .closed tag attributes => [.closed tag attributes]
  | .nested tag attributes children =>
    .start tag attributes ("\n" ++ indent (if children.isEmpty then depth else depth + 1)) ::
      (eventsOfAll (depth + 1) children ++ [.stop tag])

def eventsOfAll (depth : Nat) : List Element → List Event
  | [] => []
  | e :: r => e.events depth ++ eventsOfAll depth r

end

/-- The text of some lines. -/
def chars (lines : List String) : List Char := lines.flatMap fun line ↦ line.toList ++ ['\n']

theorem chars_append (lines lines' : List String) :
    chars (lines ++ lines') = chars lines ++ chars lines' :=
  List.flatMap_append

theorem toList_document (root : Element) :
    (document root).toList = chars (declaration :: root.lines 0) := by
  rw [document, String.toList_join, List.flatMap_map, chars]
  exact List.flatMap_congr fun line _ ↦ by simp

theorem not_mem_indent {c : Char} (hc : c ≠ ' ') (depth : Nat) : c ∉ (indent depth).toList := by
  rw [indent, String.toList_ofList, List.mem_replicate]
  exact fun h ↦ hc h.2

/-- An element starts with the blanks in front of its first tag. -/
theorem exists_chars_lines (depth : Nat) (e : Element) :
    ∃ r, chars (e.lines depth) = (indent depth).toList ++ '<' :: r := by
  cases e <;> simp [chars, Element.lines]

/-- What is between a start tag and the next tag, at the end of a line. -/
theorem lead_linesOfAll (depth : Nat) (children : List Element) (cs : List Char) :
    lead ('\n' :: (chars (linesOfAll (depth + 1) children) ++
        ((indent depth).toList ++ '<' :: cs))) =
      ("\n" ++ indent (if children.isEmpty then depth else depth + 1)).toList := by
  have hblank : ∀ depth, '<' ∉ '\n' :: (indent depth).toList := by
    intro depth
    simpa using not_mem_indent (by decide) depth
  rw [String.toList_append]
  cases children with
  | nil =>
    show lead ('\n' :: ((indent depth).toList ++ '<' :: cs)) = _
    rw [← List.cons_append, lead_append (hblank depth), lead_cons_tag, List.append_nil]
    rfl
  | cons e r =>
    obtain ⟨after, hafter⟩ := exists_chars_lines (depth + 1) e
    rw [linesOfAll, chars_append, hafter, List.append_assoc, List.append_assoc, List.cons_append,
      ← List.cons_append, lead_append (hblank _), lead_cons_tag, List.append_nil]
    rfl

mutual

/-- **The lines of an element are read as its tags**, whatever comes after them. -/
theorem readAll?_lines (depth : Nat) (cs : List Char) :
    (e : Element) → e.IsNamed →
      readAll? (chars (e.lines depth) ++ cs) = (readAll? cs).map (e.events depth ++ ·)
  | .text tag attributes text, ⟨htag, hattributes⟩ => by
    have hchars : chars ((Element.text tag attributes text).lines depth) ++ cs =
        (indent depth).toList ++ '<' :: ((head tag attributes).toList ++ '>' ::
          ((escape text).toList ++ '<' :: '/' :: (tag.toList ++ '>' :: (['\n'] ++ cs)))) := by
      simp [chars, Element.lines]
    have hblank : '<' ∉ (indent depth).toList := not_mem_indent (by decide) depth
    have htext : '<' ∉ (escape text).toList := not_mem_escape (by decide) text
    rw [hchars, readAll?_append hblank, readAll?_start htag hattributes, lead_append htext,
      lead_cons_tag, List.append_nil, unescape?_escape, Option.bind_some, readAll?_append htext,
      readAll?_stop htag, readAll?_append (by decide), Option.map_map, String.ofList_toList]
    rfl
  | .closed tag attributes, ⟨htag, hattributes⟩ => by
    have hchars : chars ((Element.closed tag attributes).lines depth) ++ cs =
        (indent depth).toList ++ '<' :: ((head tag attributes).toList ++ '/' :: '>' ::
          (['\n'] ++ cs)) := by
      simp [chars, Element.lines]
    have hblank : '<' ∉ (indent depth).toList := not_mem_indent (by decide) depth
    rw [hchars, readAll?_append hblank, readAll?_closed htag hattributes,
      readAll?_append (by decide)]
    rfl
  | .nested tag attributes children, ⟨htag, hattributes, hchildren⟩ => by
    have hchars : chars ((Element.nested tag attributes children).lines depth) ++ cs =
        (indent depth).toList ++ '<' :: ((head tag attributes).toList ++ '>' ::
          (['\n'] ++ (chars (linesOfAll (depth + 1) children) ++ ((indent depth).toList ++
            '<' :: '/' :: (tag.toList ++ '>' :: (['\n'] ++ cs)))))) := by
      simp [chars, Element.lines]
    have hblank : '<' ∉ (indent depth).toList := not_mem_indent (by decide) depth
    have hbetween : ∀ depth, '&' ∉ ("\n" ++ indent depth).toList := by
      intro depth
      simpa using not_mem_indent (by decide) depth
    rw [hchars, readAll?_append hblank, readAll?_start htag hattributes, List.singleton_append,
      lead_linesOfAll, unescape?_of_not_mem (hbetween _), Option.bind_some,
      ← List.singleton_append, readAll?_append (by decide),
      readAll?_linesOfAll (depth + 1) _ children hchildren, readAll?_append hblank,
      readAll?_stop htag, readAll?_append (by decide), String.ofList_toList, Option.map_map,
      Option.map_map]
    refine congrArg (Option.map · _) (funext fun es ↦ ?_)
    simp [Element.events]

theorem readAll?_linesOfAll (depth : Nat) (cs : List Char) :
    (l : List Element) → AllNamed l →
      readAll? (chars (linesOfAll depth l) ++ cs) = (readAll? cs).map (eventsOfAll depth l ++ ·)
  | [], _ => by
    simp [chars, linesOfAll, eventsOfAll]
  | e :: r, ⟨he, hr⟩ => by
    rw [linesOfAll, chars_append, List.append_assoc, readAll?_lines depth _ e he,
      readAll?_linesOfAll depth cs r hr, Option.map_map]
    exact congrArg (Option.map · _) (funext fun es ↦ (List.append_assoc ..).symm)

end

/-- **Every document is read as the tags of its elements.** -/
theorem read?_document {root : Element} (h : root.IsNamed) :
    read? (document root) = some (.declaration :: root.events 0) := by
  have hchars : (document root).toList =
      '<' :: (declaration.toList.tail.dropLast ++ '>' ::
        (['\n'] ++ (chars (root.lines 0) ++ []))) := by
    have hdeclaration :
        declaration.toList = '<' :: (declaration.toList.tail.dropLast ++ ['>']) := by decide
    rw [toList_document]
    show declaration.toList ++ ['\n'] ++ chars (root.lines 0) = _
    rw [hdeclaration]
    simp
  have htag : ∀ text, readTag? declaration.toList.tail.dropLast text = some .declaration :=
    fun _ ↦ rfl
  have hend : readAll? [] = some [] := rfl
  rw [read?, hchars, readAll?_whole (by decide) (by decide), htag, Option.bind_some,
    readAll?_append (by decide), readAll?_lines 0 [] root h, hend]
  simp

end Xml

end ViewCompiler
