import Mathlib
import ViewCompiler.Convert.Output
import ViewCompiler.Proofs.Resource.Ending
import ViewCompiler.Proofs.Resource.Interning
import ViewCompiler.Proofs.Text.Words

/-!
# Names can be used as identifiers

A name that leads into code and into file names has to be spelled like an identifier, whatever text
it is made from. Names are made in three ways, and each keeps them so.

* Stored values: the words of a slug are joined by underscores, a name that would start with a digit
  or be a reserved word gets a prefix (`Name.isLegal_ofSlug`), and a suffix makes no legal name
  illegal (`Name.isLegal_claim`). `ValueStore.Legal` is the invariant that carries this over a
  history of requests.
* Files of documents: the dashes of a slug become underscores (`DocumentOutput.isIdentifier_stem`).
* Styles: what a tag has no letter for is left out (`Sharing.isStyleName_baseOfTag`).

Of slugs only `Text.IsSlug` is used, so that it does not matter which slug a text has.
-/

namespace ViewCompiler

namespace Name

/-! ### Spelling -/

/-- Whether a name has a character of the one kind, and then only characters of the other. -/
def isSpelled (first rest : Char → Bool) (s : String) : Bool :=
  match s.toList with
  | [] => false
  | c :: cs => first c && cs.all rest

/-- The characters of identifiers. -/
def isIdentifierChar (c : Char) : Bool := Text.isSlugChar c || c == '_'

/-- Whether a name is spelled `[a-z][a-z0-9_]*`. -/
def isIdentifier : String → Bool := isSpelled Char.isLower isIdentifierChar

/-- Whether a name is spelled `[A-Z][A-Za-z0-9_]*`. -/
def isStyleName : String → Bool := isSpelled Char.isUpper fun c ↦ c.isAlphanum || c == '_'

/-- Whether a name is an identifier and no reserved word. -/
def isLegal (s : String) : Bool := isIdentifier s && !reserved.contains s

section

variable {first rest : Char → Bool} {s t : String}

theorem isSpelled_iff : isSpelled first rest s = true ↔
    ∃ c cs, s.toList = c :: cs ∧ first c = true ∧ ∀ d ∈ cs, rest d = true := by
  rw [isSpelled]
  cases s.toList with
  | nil => simp
  | cons c cs => simp

/-- More characters of the second kind do no harm. -/
theorem isSpelled_append (h : isSpelled first rest s = true) (ht : ∀ d ∈ t.toList, rest d = true) :
    isSpelled first rest (s ++ t) = true := by
  obtain ⟨c, cs, hs, hc, hcs⟩ := isSpelled_iff.1 h
  refine isSpelled_iff.2 ⟨c, cs ++ t.toList, ?_, hc, fun d hd ↦ ?_⟩
  · rw [String.toList_append, hs, List.cons_append]
  · exact (List.mem_append.1 hd).elim (hcs d) (ht d)

/-- A number at the end does no harm, where digits and underscores are allowed. -/
theorem isSpelled_suffixed (h : isSpelled first rest s = true) (hbar : rest '_' = true)
    (hdigit : ∀ d : Char, d.isDigit = true → rest d = true) (n : Nat) :
    isSpelled first rest (suffixed s n) = true := by
  have hbar' : ∀ d ∈ "_".toList, rest d = true := fun d hd ↦ by
    obtain rfl := List.mem_singleton.1 hd
    exact hbar
  refine isSpelled_append (isSpelled_append h hbar') fun d hd ↦ hdigit d ?_
  rw [Nat.toString_eq_ofList_toDigits, String.toList_ofList] at hd
  exact Nat.isDigit_of_mem_toDigits (by decide) (by decide) hd

end

theorem isIdentifier_suffixed {s : String} (h : isIdentifier s = true) (n : Nat) :
    isIdentifier (suffixed s n) = true :=
  isSpelled_suffixed h (by decide)
    (fun d hd ↦ by rw [isIdentifierChar, Text.isSlugChar, hd, Bool.or_true, Bool.true_or]) n

theorem isStyleName_suffixed {s : String} (h : isStyleName s = true) (n : Nat) :
    isStyleName (suffixed s n) = true :=
  isSpelled_suffixed h (by decide)
    (fun d hd ↦ by rw [Char.isAlphanum, hd, Bool.or_true, Bool.true_or]) n

/-! ### Reserved words -/

theorem isLegal_iff {s : String} : isLegal s = true ↔ isIdentifier s = true ∧ s ∉ reserved := by
  simp [isLegal]

/-- No reserved word has an underscore. -/
theorem not_mem_reserved {s : String} (h : '_' ∈ s.toList) : s ∉ reserved := fun hmem ↦
  (by decide : ∀ w ∈ reserved, '_' ∉ w.toList) s hmem h

theorem isLegal_suffixed {s : String} (h : isLegal s = true) (n : Nat) :
    isLegal (suffixed s n) = true := by
  refine isLegal_iff.2 ⟨isIdentifier_suffixed (isLegal_iff.1 h).1 n, not_mem_reserved ?_⟩
  rw [suffixed, String.toList_append, String.toList_append]
  exact List.mem_append_left _ (List.mem_append_right _ (.head _))

/-! ### Free names -/

/-- **A claimed name is legal if its base is.** -/
theorem isLegal_claim {base : String} (h : isLegal base = true) (taken : List String)
    (suffix : Bool) : isLegal (claim taken base suffix) = true := by
  rw [claim]
  split
  · exact h
  · rw [firstFree_snd]
    exact isLegal_suffixed h _

/-! ### Names from slugs -/

/-- Words that are joined by underscores are spelled like an identifier, except that they may start
with a digit. -/
theorem isSpelled_join {ws : List (List Char)} (hne : ws ≠ [])
    (hws : ∀ w ∈ ws, w ≠ [] ∧ ∀ c ∈ w, Text.isSlugChar c = true) :
    isSpelled Text.isSlugChar isIdentifierChar
      (String.ofList (['_'].intercalate ws)) = true := by
  have hchar : ∀ c ∈ ['_'].intercalate ws, isIdentifierChar c = true := fun c hc ↦ by
    rcases Text.mem_intercalate hc with hc | ⟨w, hw, hc⟩
    · obtain rfl := List.mem_singleton.1 hc
      decide
    · rw [isIdentifierChar, (hws w hw).2 c hc, Bool.true_or]
  obtain ⟨w, ws, rfl⟩ := List.exists_cons_of_ne_nil hne
  obtain ⟨c, cs, rfl⟩ := List.exists_cons_of_ne_nil (hws w (.head _)).1
  have hfirst : Text.isSlugChar c = true := (hws _ (.head _)).2 c (.head _)
  obtain ⟨rest, hrest⟩ : ∃ rest, ['_'].intercalate ((c :: cs) :: ws) = c :: rest := by
    cases ws with
    | nil => exact ⟨cs, List.intercalate_singleton⟩
    | cons v ws =>
      rw [List.intercalate_cons_cons, List.append_assoc, List.cons_append]
      exact ⟨_, rfl⟩
  rw [hrest] at hchar ⊢
  exact isSpelled_iff.2 ⟨c, rest, String.toList_ofList, hfirst, fun d hd ↦ hchar d (.tail _ hd)⟩

/-- What starts with a digit starts with no letter. -/
theorem isIdentifier_of_not_startsWithDigit {s : String}
    (h : isSpelled Text.isSlugChar isIdentifierChar s = true) (hdigit : startsWithDigit s = false) :
    isIdentifier s = true := by
  obtain ⟨c, cs, hs, hc, hcs⟩ := isSpelled_iff.1 h
  refine isSpelled_iff.2 ⟨c, cs, hs, ?_, hcs⟩
  have hfirst : c.isDigit = false := by rwa [startsWithDigit, hs] at hdigit
  rwa [Text.isSlugChar, hfirst, Bool.or_false] at hc

/-- A prefix that is an identifier makes one of what may start with a digit. -/
theorem isIdentifier_prefixed {before s : String} (hbefore : isIdentifier before = true)
    (h : isSpelled Text.isSlugChar isIdentifierChar s = true) :
    isIdentifier (before ++ s) = true := by
  obtain ⟨c, cs, hs, hc, hcs⟩ := isSpelled_iff.1 h
  refine isSpelled_append hbefore fun d hd ↦ ?_
  rw [hs] at hd
  rcases List.mem_cons.1 hd with rfl | hd
  · rw [isIdentifierChar, hc, Bool.true_or]
  · exact hcs d hd

/-- **A name made from a slug is legal**, if the name for want of words is. -/
theorem isLegal_ofSlug {config : NameConfig} (hconfig : config.reservedPrefix = "s_")
    {slug fallback : String} (hslug : Text.IsSlug slug)
    (hfallback : isLegal fallback = true) : isLegal (ofSlug config slug fallback) = true := by
  have hword : ∀ w ∈ (Text.runs (· == '-') slug.toList).take (max config.maxSlugWords 1),
      w ≠ [] ∧ ∀ c ∈ w, Text.isSlugChar c = true := fun w hw ↦ by
    have hrun := Text.isRun_of_mem (List.mem_of_mem_take hw)
    refine ⟨hrun.ne_nil, fun c hc ↦ (hslug.mem (hrun.mem c hc)).resolve_right fun hdash ↦ ?_⟩
    exact absurd (hrun.inside c hc) (by simp [hdash])
  rw [ofSlug, hconfig]
  generalize (Text.runs (· == '-') slug.toList).take (max config.maxSlugWords 1) = ws at hword
  have hspelled : isSpelled Text.isSlugChar isIdentifierChar
      (if ws.isEmpty then fallback else "_".intercalate (ws.map String.ofList)) = true := by
    split
    · obtain ⟨c, cs, hs, hc, hcs⟩ := isSpelled_iff.1 (isLegal_iff.1 hfallback).1
      exact isSpelled_iff.2 ⟨c, cs, hs, by rw [Text.isSlugChar, hc, Bool.true_or], hcs⟩
    · rename_i hne
      have hjoin : "_".intercalate (ws.map String.ofList) =
          String.ofList (['_'].intercalate ws) := by
        rw [← String.toList_inj, Text.toList_join, String.toList_ofList, String.toList_ofList]
      rw [hjoin]
      exact isSpelled_join (fun hnil ↦ hne (by rw [hnil]; rfl)) hword
  generalize (if ws.isEmpty then fallback else "_".intercalate (ws.map String.ofList)) = name
    at hspelled
  split
  · refine isLegal_iff.2 ⟨isIdentifier_prefixed (by decide) hspelled, not_mem_reserved ?_⟩
    rw [String.toList_append]
    exact List.mem_append_left _ (.tail _ (.head _))
  · rename_i hkept
    simp only [Bool.or_eq_true, not_or, Bool.not_eq_true] at hkept
    refine isLegal_iff.2 ⟨isIdentifier_of_not_startsWithDigit hspelled hkept.1, fun hmem ↦ ?_⟩
    rw [List.contains_iff_mem.2 hmem] at hkept
    exact absurd hkept.2 (by simp)

end Name

/-! ### Names of stored values -/

namespace ValueStore

/-- A call of a store: a request, or the end of a run. -/
inductive Call where
  | ask (r : Request)
  | reset

/-- The requests among some calls, with their answers. -/
def record (s : ValueStore) : List Call → List (Request × String)
  | [] => []
  | .ask r :: calls => (r, (s.answer r).1) :: (s.answer r).2.record calls
  | .reset :: calls => s.reset.record calls

/-- A store that makes names from slugs and puts the usual prefix in front where one is needed, and
whose names are legal, those of lengths left aside. -/
structure Legal (s : ValueStore) : Prop where
  start : s.config.reservedPrefix = "s_"
  slug : ∀ text, Text.IsSlug (s.slug text)
  names : ∀ k ≠ .dimension, ∀ name ∈ (s.table k).names, Name.isLegal name = true

namespace Legal

variable {s : ValueStore}

theorem new {slug : String → String} (hslug : ∀ text, Text.IsSlug (slug text))
    {config : NameConfig} (hconfig : config.reservedPrefix = "s_") (palette : Palette) :
    Legal (new slug config palette) where
  start := hconfig
  slug := hslug
  names k _ name hname := by cases k <;> exact absurd hname List.not_mem_nil

theorem reset (h : s.Legal) : s.reset.Legal := .new h.slug h.start s.palette

theorem nameFor (h : s.Legal) (text : String) {fallback : String}
    (hfallback : Name.isLegal fallback = true) : Name.isLegal (s.nameFor text fallback) = true :=
  Name.isLegal_ofSlug h.start (h.slug text) hfallback

/-- Every base but that of a length is legal. -/
theorem base (h : s.Legal) (r : Request) (hr : r.kind ≠ .dimension) :
    Name.isLegal (s.base r).1 = true := by
  cases r with
  | string text => exact h.nameFor text (by decide)
  | array hint items => exact h.nameFor (hint ++ " entries") (by decide)
  | color c =>
    rw [ValueStore.base]
    split
    · exact h.nameFor _ (by decide)
    · decide
  | font family => exact h.nameFor ("font " ++ Text.trim family) (by decide)
  | dimension x unit => exact absurd rfl hr
  | drawable d => exact h.nameFor d.hint (by decide)

/-- **One request.** -/
theorem answer (h : s.Legal) (r : Request) :
    (s.answer r).2.Legal ∧ (r.kind ≠ .dimension → Name.isLegal (s.answer r).1 = true) := by
  obtain ⟨hname, htable⟩ := s.answer_eq_fresh r
  have hlegal : r.kind ≠ .dimension → Name.isLegal (s.fresh r) = true := fun hr ↦
    Name.isLegal_claim (h.base r hr) _ _
  -- the name is that of an entry, or the fresh one
  have hcases := (s.table r.kind).request_cases r.key (s.fresh r) r.value
  refine ⟨⟨?_, ?_, fun k hk name hmem ↦ ?_⟩, fun hr ↦ ?_⟩
  · cases r <;> exact h.start
  · cases r <;> exact h.slug
  · by_cases hr : r.kind = k
    · subst hr
      rw [htable] at hmem
      rcases hcases with ⟨found, -, hok⟩ | ⟨-, hok⟩
      · rw [hok] at hmem
        exact h.names r.kind hk name hmem
      · rw [hok, Table.names, List.map_append, List.mem_append] at hmem
        rcases hmem with hmem | hmem
        · exact h.names r.kind hk name hmem
        · exact List.mem_singleton.1 hmem ▸ hlegal hk
    · rw [s.table_answer_of_ne r hr] at hmem
      exact h.names k hk name hmem
  · rw [hname]
    rcases hcases with ⟨found, hfound, hok⟩ | ⟨-, hok⟩
    · rw [hok]
      obtain ⟨e, he, -, rfl⟩ := Table.mem_of_name? hfound
      exact h.names r.kind hr _ (List.mem_map_of_mem he)
    · rw [hok]
      exact hlegal hr

/-- **A history of calls.** -/
theorem record (h : s.Legal) (calls : List Call) :
    ∀ e ∈ s.record calls, e.1.kind ≠ .dimension → Name.isLegal e.2 = true := by
  induction calls generalizing s with
  | nil => exact fun e he ↦ absurd he List.not_mem_nil
  | cons call calls ih =>
    cases call with
    | ask r =>
      intro e he hr
      rcases List.mem_cons.1 he with rfl | he
      · exact (h.answer r).2 hr
      · exact ih (h.answer r).1 e he hr
    | reset => exact ih h.reset

end Legal

end ValueStore

/-! ### Names of files -/

namespace DocumentOutput

/-- **Every stem is an identifier.** -/
theorem isIdentifier_stem {slug : String → String} (hslug : ∀ text, Text.IsSlug (slug text))
    (name : String) (root : NodeId) : Name.isIdentifier (stem slug name root) = true := by
  obtain ⟨ws, hws, hs⟩ := hslug name
  have hroot : "layout_" ++ toString root = Name.suffixed "layout" root :=
    congrArg (· ++ toString root) (by decide : "layout_" = "layout" ++ "_")
  have hnumber : Name.isIdentifier ("layout_" ++ toString root) = true := by
    rw [hroot]
    exact Name.isIdentifier_suffixed (by decide) root
  rw [stem, Text.underscored_of_words (fun w hw ↦ (hws w hw).2) hs]
  cases ws with
  | nil =>
    rw [List.intercalate_nil, if_pos (by decide)]
    exact hnumber
  | cons w ws =>
    have hspelled := Name.isSpelled_join (List.cons_ne_nil w ws) hws
    generalize String.ofList (['_'].intercalate (w :: ws)) = stem at hspelled
    split
    · exact hnumber
    · split
      · exact Name.isIdentifier_prefixed (by decide) hspelled
      · rename_i hdigit
        exact Name.isIdentifier_of_not_startsWithDigit hspelled (eq_false_of_ne_true hdigit)

end DocumentOutput

/-! ### Names of styles -/

namespace Sharing

theorem isStyleName_baseOfTag (tag : String) : Name.isStyleName (baseOfTag tag) = true := by
  have hkept : ∀ c ∈ tag.toList.filter fun c ↦ c.isAlphanum || c == '_',
      (c.isAlphanum || c == '_') = true := fun c hc ↦ (List.mem_filter.1 hc).2
  rw [baseOfTag]
  generalize (tag.toList.filter fun c ↦ c.isAlphanum || c == '_') = cs at hkept
  cases cs with
  | nil => decide
  | cons c r =>
    dsimp only
    split
    · rename_i halpha
      refine Name.isSpelled_iff.2 ⟨c.toUpper, r, String.toList_ofList, ?_,
        fun d hd ↦ hkept d (.tail _ hd)⟩
      rw [Char.isUpper_toUpper_eq_isAlpha, halpha]
    · refine Name.isSpelled_append (by decide) fun d hd ↦ hkept d ?_
      rwa [String.toList_ofList] at hd

/-- The styles of some elements have names that styles can have. -/
def Spelled (s : Sharing) : Prop := ∀ e ∈ s.styles, Name.isStyleName e.name = true

/-- **One more style.** -/
theorem Spelled.promote {base : String} (hbase : Name.isStyleName base = true) {p : Progress}
    (h : p.result.Spelled) (c : Candidate) : (promote base p c).result.Spelled := by
  intro e he
  rw [promote_styles, List.mem_append, List.mem_singleton] at he
  rcases he with he | rfl
  · exact h e he
  · rw [newStyle, Name.firstFree_snd, nameAt]
    split
    · exact hbase
    · exact Name.isStyleName_suffixed hbase _

theorem Spelled.runs {config : SharingConfig} {gs : List (String × List Member)}
    {taken taken' : List String} {s s' : Sharing} (h : Runs config gs taken s taken' s')
    (hs : s.Spelled) : s'.Spelled := by
  induction h with
  | nil => exact hs
  | @cons tag group gs taken taken' s s' p rounds rest ih =>
    have hp : p.result.Spelled := rounds.keeps (I := fun p ↦ p.result.Spelled) hs
      fun _ c hp _ ↦ hp.promote (isStyleName_baseOfTag tag) c
    exact ih hp

/-- **Every style has such a name.** -/
theorem spelled_ofMembers (config : SharingConfig) (members : List Member) :
    (ofMembers config members).Spelled := by
  have hempty : empty.Spelled := fun e he ↦ absurd he List.not_mem_nil
  cases henabled : config.enabled with
  | false =>
    rw [ofMembers, henabled]
    exact hempty
  | true =>
    obtain ⟨taken, hruns⟩ := runs_ofMembers henabled members
    exact .runs hruns hempty

end Sharing

/-! ### All names -/

/-- **Names are legal**, whatever they are made from. With the usual prefix in front of names that
need one, each name that a store answers in a history of calls is an identifier and no reserved
word, those of lengths left aside. The file of a document has an identifier for its stem, and every
style has a name that styles can have. -/
theorem ValueStore.names_legal (slug : String → String) (hslug : ∀ text, Text.IsSlug (slug text))
    (maxSlugWords : Nat) (palette : Palette) :
    (∀ calls, ∀ e ∈ (new slug ⟨maxSlugWords, NameConfig.default.reservedPrefix⟩ palette).record
        calls, e.1.kind ≠ .dimension → Name.isIdentifier e.2 = true ∧ e.2 ∉ Name.reserved) ∧
      (∀ name root, Name.isIdentifier (DocumentOutput.stem slug name root) = true) ∧
      ∀ config members, ∀ e ∈ (Sharing.ofMembers config members).styles,
        Name.isStyleName e.name = true :=
  ⟨fun calls e he hr ↦ Name.isLegal_iff.1 ((Legal.new hslug rfl palette).record calls e he hr),
    DocumentOutput.isIdentifier_stem hslug,
    Sharing.spelled_ofMembers⟩

/-- A reserved word that is left of a text, twice, a digit in front, and no words at all. -/
theorem ValueStore.names_legal_oneWord :
    let record := (new Text.asciiSlug ⟨1, NameConfig.default.reservedPrefix⟩ .basic).record
      [.ask (.string "Class of 1984"), .ask (.string "class"), .ask (.string "42 people"), .reset,
        .ask (.string "!"), .ask (.font "int")]
    record.map Prod.snd = ["s_class", "s_class_1", "s_42", "string", "font"] ∧
      ∀ e ∈ record, Name.isIdentifier e.2 = true ∧ e.2 ∉ Name.reserved :=
  ⟨by decide +kernel, fun e he ↦
    (names_legal Text.asciiSlug Text.isSlug_asciiSlug 1 .basic).1 _ e he
      ((by decide +kernel : ∀ e ∈ (new Text.asciiSlug ⟨1, NameConfig.default.reservedPrefix⟩
        .basic).record _, e.1.kind ≠ .dimension) e he)⟩

end ViewCompiler
