import Mathlib
import ViewCompiler.Proofs.Style.Readers

/-!
# Texts of dimensions

The texts that stand for a dimension, as a grammar that knows of no reader: the word `auto` in any
letter case, a number with a percent sign, and a number with or without a unit
(`Dimension.Written`). A number is an optional sign with digits, a fraction or both
(`Decimal.IsNumber`), and every such text has a value (`Decimal.exists_ofChars`).

The reader of dimensions tries the three forms one after another and never goes back on a form that
has succeeded. It finds every dimension that is followed by a break (`Reader.dimension_append`),
since the first letters of the forms are told apart, and it takes nothing else
(`Reader.exists_of_dimension`). So a complete text is accepted exactly if it is a dimension with
blanks around it (`Style.readWhole_dimension`).
-/

namespace ViewCompiler

/-! ### Texts of numbers -/

namespace Decimal

/-- Decimal digits, at least one. -/
structure IsDigits (ds : List Char) : Prop where
  ne_nil : ds ≠ []
  digit : ∀ c ∈ ds, c.isDigit = true

/-- Digits, with a point and digits after them or not, or a point with digits after it. -/
inductive IsUnsigned : List Char → Prop
  | whole {ds : List Char} (digits : IsDigits ds) : IsUnsigned ds
  | mixed {ds fs : List Char} (digits : IsDigits ds) (fraction : IsDigits fs) :
      IsUnsigned (ds ++ '.' :: fs)
  | fraction {fs : List Char} (fraction : IsDigits fs) : IsUnsigned ('.' :: fs)

/-- **The text of a number**, with a sign or not. -/
inductive IsNumber : List Char → Prop
  | unsigned {u : List Char} (digits : IsUnsigned u) : IsNumber u
  | plus {u : List Char} (digits : IsUnsigned u) : IsNumber ('+' :: u)
  | minus {u : List Char} (digits : IsUnsigned u) : IsNumber ('-' :: u)

/-- A character of a number. -/
def IsNumeral (c : Char) : Prop := c.isDigit = true ∨ c ∈ ['.', '+', '-']

theorem IsDigits.exists_cons {ds : List Char} (h : IsDigits ds) :
    ∃ c r, ds = c :: r ∧ c.isDigit = true := by
  obtain ⟨c, r, rfl⟩ := List.exists_cons_of_ne_nil h.ne_nil
  exact ⟨c, r, rfl, h.digit c List.mem_cons_self⟩

theorem IsDigits.isEmpty {ds : List Char} (h : IsDigits ds) : ds.isEmpty = false := by
  rw [List.isEmpty_eq_false_iff]
  exact h.ne_nil

theorem isDigits_of_isEmpty {ds r cs : List Char} (h : spanDigits cs = (ds, r))
    (hne : ¬ ds.isEmpty = true) : IsDigits ds where
  ne_nil := fun hnil ↦ hne (by rw [hnil]; rfl)
  digit c hc := List.mem_takeWhile_imp ((Prod.mk.inj h).1 ▸ hc)

theorem IsUnsigned.numeral {u : List Char} (h : IsUnsigned u) : ∀ c ∈ u, IsNumeral c := by
  have hpoint : IsNumeral '.' := .inr (by decide)
  cases h with
  | whole digits => exact fun c hc ↦ .inl (digits.digit c hc)
  | mixed digits fraction =>
    refine List.forall_mem_append.2 ⟨fun c hc ↦ .inl (digits.digit c hc), ?_⟩
    exact List.forall_mem_cons.2 ⟨hpoint, fun c hc ↦ .inl (fraction.digit c hc)⟩
  | fraction fraction =>
    exact List.forall_mem_cons.2 ⟨hpoint, fun c hc ↦ .inl (fraction.digit c hc)⟩

theorem IsUnsigned.exists_cons {u : List Char} (h : IsUnsigned u) :
    ∃ c r, u = c :: r ∧ (c.isDigit = true ∨ c = '.') := by
  cases h with
  | whole digits =>
    obtain ⟨c, r, rfl, hc⟩ := digits.exists_cons
    exact ⟨c, r, rfl, .inl hc⟩
  | mixed digits fraction =>
    obtain ⟨c, r, rfl, hc⟩ := digits.exists_cons
    exact ⟨c, _, rfl, .inl hc⟩
  | fraction fraction => exact ⟨'.', _, rfl, .inr rfl⟩

theorem IsNumber.numeral {n : List Char} (h : IsNumber n) : ∀ c ∈ n, IsNumeral c := by
  cases h with
  | unsigned digits => exact digits.numeral
  | plus digits => exact List.forall_mem_cons.2 ⟨.inr (by decide), digits.numeral⟩
  | minus digits => exact List.forall_mem_cons.2 ⟨.inr (by decide), digits.numeral⟩

theorem IsNumber.exists_cons {n : List Char} (h : IsNumber n) : ∃ c r, n = c :: r := by
  cases h with
  | unsigned digits =>
    obtain ⟨c, r, rfl, -⟩ := digits.exists_cons
    exact ⟨c, r, rfl⟩
  | plus digits => exact ⟨_, _, rfl⟩
  | minus digits => exact ⟨_, _, rfl⟩

theorem IsNumeral.not_letter {c : Char} (h : IsNumeral c) : c.isAlpha = false := by
  rcases h with h | h
  · have hdigit : c.toNat ≤ 57 := (Char.isDigit_iff_toNat.1 h).2
    have hupper : c.isUpper = true → 65 ≤ c.toNat := fun hc ↦ by
      simp [Char.isUpper, UInt32.le_iff_toNat_le] at hc
      exact hc.1
    have hlower : c.isLower = true → 97 ≤ c.toNat := fun hc ↦ by
      simp [Char.isLower, UInt32.le_iff_toNat_le] at hc
      exact hc.1
    rw [Bool.eq_false_iff, Char.isAlpha, Ne, Bool.or_eq_true]
    rintro (hc | hc)
    · exact absurd (Nat.le_trans (hupper hc) hdigit) (by decide)
    · exact absurd (Nat.le_trans (hlower hc) hdigit) (by decide)
  · simp only [List.mem_cons, List.not_mem_nil, or_false] at h
    rcases h with rfl | rfl | rfl <;> decide

/-- The characters of a number have no letter case. -/
theorem IsNumeral.toLower {c : Char} (h : IsNumeral c) : c.toLower = c := by
  have hletter := h.not_letter
  rw [Char.isAlpha, Bool.or_eq_false_iff] at hletter
  exact Char.toLower_eq_of_not_isUpper (by simp [hletter.1])

theorem IsNumeral.not_blank {c : Char} (h : IsNumeral c) : c.isWhitespace = false := by
  rw [Bool.eq_false_iff]
  intro hblank
  rcases Text.eq_of_isWhitespace hblank with rfl | rfl | rfl | rfl <;> rcases h with h | h <;>
    exact absurd h (by decide)

/-! ### Values of numbers -/

theorem spanDigits_append {ds rest : List Char} (h : ∀ c ∈ ds, c.isDigit = true)
    (hrest : ∀ c ∈ rest.head?, c.isDigit = false) : spanDigits (ds ++ rest) = (ds, rest) := by
  rw [spanDigits, Text.takeWhile_append_left h hrest, Text.dropWhile_append_left h hrest]

theorem spanDigits_nil {cs : List Char} (h : ∀ c ∈ cs.head?, c.isDigit = false) :
    spanDigits cs = ([], cs) :=
  spanDigits_append (fun _ hc ↦ absurd hc List.not_mem_nil) h

theorem exists_ofUnsigned? (negative : Bool) {u : List Char} (h : IsUnsigned u) :
    ∃ d, ofUnsigned? negative u = some d := by
  have hend : ∀ {fs : List Char}, IsDigits fs → spanDigits fs = (fs, []) := fun {fs} hfs ↦ by
    have hnone : ∀ c ∈ ([] : List Char).head?, c.isDigit = false := by simp
    have happend := spanDigits_append hfs.digit hnone
    rwa [List.append_nil] at happend
  cases h with
  | whole digits =>
    rw [ofUnsigned?, hend digits]
    simp [digits.ne_nil, readExponent?]
  | mixed digits fraction =>
    rw [ofUnsigned?, spanDigits_append digits.digit (by simp)]
    simp [hend fraction, digits.ne_nil, readExponent?]
  | @fraction fs fraction =>
    have hpoint : spanDigits ('.' :: fs) = ([], '.' :: fs) :=
      spanDigits_nil (by simp)
    rw [ofUnsigned?, hpoint]
    simp [hend fraction, fraction.ne_nil, readExponent?]

/-- **Every number has a value.** -/
theorem exists_ofChars {n : List Char} (h : IsNumber n) : ∃ x, Scalar.ofChars n = .ok x := by
  obtain ⟨negative, u, hsign, hu⟩ : ∃ negative u, splitSign n = (negative, u) ∧ IsUnsigned u := by
    cases h with
    | unsigned digits =>
      obtain ⟨c, r, rfl, hc⟩ := digits.exists_cons
      refine ⟨false, c :: r, ?_, digits⟩
      rw [splitSign]
      all_goals
        intro r' heq
        obtain ⟨rfl, -⟩ := List.cons.inj heq
        exact absurd hc (by decide)
    | plus digits => exact ⟨false, _, rfl, digits⟩
    | minus digits => exact ⟨true, _, rfl, digits⟩
  -- the words for what is infinite or no number start with a letter
  have hword : ∀ {c : Char} {w : List Char}, c.isAlpha = true → u.map Char.toLower ≠ c :: w :=
    fun {c w} halpha heq ↦ by
      obtain ⟨d, r, rfl, -⟩ := hu.exists_cons
      have hd := hu.numeral d List.mem_cons_self
      have hdc : d.toLower = c := (List.cons.inj heq).1
      rw [hd.toLower] at hdc
      rw [← hdc, hd.not_letter] at halpha
      exact absurd halpha (by decide)
  obtain ⟨d, hd⟩ := exists_ofUnsigned? negative hu
  obtain ⟨c, r, rfl⟩ := h.exists_cons
  refine ⟨d.toScalar, ?_⟩
  rw [Scalar.ofChars, if_neg (by simp)]
  dsimp only
  rw [hsign]
  dsimp only
  rw [if_neg, if_neg, hd]
  · exact hword (by decide)
  · exact not_or.2 ⟨hword (by decide), hword (by decide)⟩

/-- A word in letters does not start with a number. -/
theorem IsNumber.clashes {n : List Char} (h : Decimal.IsNumber n)
    {c : Char} (hc : c.isAlpha = true) (w : List Char) :
    Reader.clashes (c :: w) (n.map Char.toLower) = true := by
  obtain ⟨d, r, rfl⟩ := h.exists_cons
  have hd := h.numeral d List.mem_cons_self
  rw [List.map_cons, Reader.clashes, hd.toLower, Bool.or_eq_true, bne_iff_ne]
  refine .inl ?_
  rintro rfl
  exact absurd (hd.not_letter ▸ hc) (by decide)

end Decimal

/-- **The text of a number with its value.** -/
structure Scalar.Written (n : List Char) (x : Scalar) : Prop where
  number : Decimal.IsNumber n
  value : Scalar.ofChars n = .ok x

/-! ### Texts of dimensions -/

/-- A unit of length in any letter case with its factor, or no unit. -/
inductive Dimension.UnitWritten : List Char → Scalar → Prop
  | none : UnitWritten [] 1
  | unit {name : String} {factor : Scalar} {u : List Char} (known : (name, factor) ∈ Reader.units)
      (word : u.map Char.toLower = name.toList) : UnitWritten u factor

/-- **The text of a dimension with its value.** -/
inductive Dimension.Written : List Char → Dimension → Prop
  | auto {w : List Char} (word : w.map Char.toLower = "auto".toList) : Written w .auto
  | percent {n : List Char} {x : Scalar} (number : Scalar.Written n x) :
      Written (n ++ ['%']) (.percent x)
  | px {n u : List Char} {x factor : Scalar} (number : Scalar.Written n x)
      (unit : UnitWritten u factor) : Written (n ++ u) (.px (x * factor))

namespace Reader

/-! ### Reading numbers -/

/-- What is read after the sign of a number. -/
def unsignedText (sign cs : List Char) : Option (List Char × List Char) :=
  let (ds, r) := Decimal.spanDigits cs
  match r with
  | '.' :: r' =>
    let (fs, r'') := Decimal.spanDigits r'
    if fs.isEmpty then
      if ds.isEmpty then none else some (sign ++ ds, r)
    else some (sign ++ ds ++ '.' :: fs, r'')
  | _ => if ds.isEmpty then none else some (sign ++ ds, r)

/-- Without a sign. -/
theorem numberText_of_head {cs : List Char} (hplus : cs.head? ≠ some '+')
    (hminus : cs.head? ≠ some '-') : numberText cs = unsignedText [] cs := by
  rw [numberText]
  · rfl
  · exact fun r heq ↦ hplus (heq ▸ rfl)
  · exact fun r heq ↦ hminus (heq ▸ rfl)

/-- Where a number ends, and where none starts. -/
def EndsNumber (rest : List Char) : Prop := ∀ c ∈ rest.head?, ¬ Decimal.IsNumeral c

theorem unsignedText_append (sign : List Char) {u rest : List Char} (h : Decimal.IsUnsigned u)
    (hrest : EndsNumber rest) : unsignedText sign (u ++ rest) = some (sign ++ u, rest) := by
  have hdigit : ∀ c ∈ rest.head?, c.isDigit = false :=
    fun c hc ↦ Bool.eq_false_iff.2 fun hdigit ↦ hrest c hc (.inl hdigit)
  cases h with
  | whole digits =>
    rw [unsignedText, Decimal.spanDigits_append digits.digit hdigit]
    dsimp only
    split
    · exact absurd (.inr (by decide)) (hrest '.' rfl)
    · rw [digits.isEmpty]
      rfl
  | @mixed ds fs digits fraction =>
    rw [unsignedText, List.append_assoc, List.cons_append,
      Decimal.spanDigits_append digits.digit (by simp)]
    simp only
    rw [Decimal.spanDigits_append fraction.digit hdigit]
    dsimp only
    rw [fraction.isEmpty, List.append_assoc]
    rfl
  | @fraction fs fraction =>
    have hpoint : Decimal.spanDigits ('.' :: (fs ++ rest)) = ([], '.' :: (fs ++ rest)) :=
      Decimal.spanDigits_nil (by simp)
    rw [unsignedText, List.cons_append, hpoint]
    simp only
    rw [Decimal.spanDigits_append fraction.digit hdigit]
    dsimp only
    rw [fraction.isEmpty, List.append_nil]
    rfl

theorem exists_of_unsignedText {sign cs n r : List Char}
    (h : unsignedText sign cs = some (n, r)) :
    ∃ u, n = sign ++ u ∧ cs = u ++ r ∧ Decimal.IsUnsigned u := by
  have hspan : ∀ cs : List Char, (Decimal.spanDigits cs).1 ++ (Decimal.spanDigits cs).2 = cs :=
    fun cs ↦ List.takeWhile_append_dropWhile
  unfold unsignedText at h
  have hcs := hspan cs
  rcases hds : Decimal.spanDigits cs with ⟨ds, r₁⟩
  rw [hds] at h hcs
  dsimp only at h hcs
  -- digits alone, be it that a point without digits follows
  have hwhole : (if ds.isEmpty then none else some (sign ++ ds, r₁)) = some (n, r) →
      ∃ u, n = sign ++ u ∧ cs = u ++ r ∧ Decimal.IsUnsigned u := fun hsome ↦ by
    split at hsome
    · exact absurd hsome (by simp)
    · rename_i hne
      obtain ⟨rfl, rfl⟩ := Prod.mk.inj (Option.some.inj hsome)
      exact ⟨ds, rfl, hcs.symm, .whole (Decimal.isDigits_of_isEmpty hds hne)⟩
  split at h
  · rename_i r'
    have hr' := hspan r'
    rcases hfs : Decimal.spanDigits r' with ⟨fs, r''⟩
    rw [hfs] at h hr'
    dsimp only at h hr'
    split at h
    · exact hwhole h
    · rename_i hne
      have hfraction := Decimal.isDigits_of_isEmpty hfs hne
      obtain ⟨rfl, rfl⟩ := Prod.mk.inj (Option.some.inj h)
      refine ⟨ds ++ '.' :: fs, List.append_assoc _ _ _, ?_, ?_⟩
      · rw [← hcs, ← hr', List.append_assoc, List.cons_append]
      · cases ds with
        | nil => exact .fraction hfraction
        | cons c ds => exact .mixed (Decimal.isDigits_of_isEmpty hds (by simp)) hfraction
  · exact hwhole h

theorem numberText_append {n rest : List Char} (h : Decimal.IsNumber n) (hrest : EndsNumber rest) :
    numberText (n ++ rest) = some (n, rest) := by
  cases h with
  | unsigned digits =>
    obtain ⟨c, r, rfl, hc⟩ := digits.exists_cons
    rw [numberText_of_head, unsignedText_append [] digits hrest, List.nil_append]
    · rintro ⟨⟩
      exact absurd hc (by decide)
    · rintro ⟨⟩
      exact absurd hc (by decide)
  | plus digits => exact unsignedText_append ['+'] digits hrest
  | minus digits => exact unsignedText_append ['-'] digits hrest

theorem exists_of_numberText {cs n r : List Char} (h : numberText cs = some (n, r)) :
    Decimal.IsNumber n ∧ cs = n ++ r := by
  by_cases hplus : cs.head? = some '+'
  · obtain ⟨r', rfl⟩ := List.head?_eq_some_iff.1 hplus
    obtain ⟨u, rfl, rfl, hu⟩ := exists_of_unsignedText h
    exact ⟨.plus hu, rfl⟩
  by_cases hminus : cs.head? = some '-'
  · obtain ⟨r', rfl⟩ := List.head?_eq_some_iff.1 hminus
    obtain ⟨u, rfl, rfl, hu⟩ := exists_of_unsignedText h
    exact ⟨.minus hu, rfl⟩
  rw [numberText_of_head hplus hminus] at h
  obtain ⟨u, rfl, rfl, hu⟩ := exists_of_unsignedText h
  exact ⟨.unsigned hu, rfl⟩

/-- **A number is read to its end.** -/
theorem number_append {n rest : List Char} {x : Scalar} (h : Scalar.Written n x)
    (hrest : EndsNumber rest) : number (n ++ rest) = some (x, rest) := by
  rw [number, numberText_append h.number hrest]
  simp [h.value, Except.toOption]

/-- **Nothing but a number is read.** -/
theorem exists_of_number {cs r : List Char} {x : Scalar} (h : number cs = some (x, r)) :
    ∃ n, cs = n ++ r ∧ Scalar.Written n x := by
  rw [number, Option.bind_eq_bind, Option.bind_eq_some_iff] at h
  obtain ⟨⟨n, r'⟩, hn, h⟩ := h
  obtain ⟨hnumber, rfl⟩ := exists_of_numberText hn
  cases hx : Scalar.ofChars n with
  | error e => simp [hx, Except.toOption] at h
  | ok y =>
    obtain ⟨rfl, rfl⟩ : y = x ∧ r' = r := by simpa [hx, Except.toOption] using h
    exact ⟨n, rfl, hnumber, hx⟩

/-- A letter is not part of a number, in either letter case. -/
theorem endsNumber_of_letter {c : Char} (h : c.toLower.isAlpha = true) (r : List Char) :
    EndsNumber (c :: r) := fun d hd hnumeral ↦ by
  obtain rfl := Option.some.inj hd
  rw [hnumeral.toLower, hnumeral.not_letter] at h
  exact absurd h (by decide)

/-- A word in letters is not read off a number. -/
theorem keyword_of_number {α : Type} {w : String} {a : α} {c : Char} {r n : List Char}
    (hw : w.toList = c :: r) (hc : c.isAlpha = true) (h : Decimal.IsNumber n) (rest : List Char) :
    keyword w a (n ++ rest) = none :=
  keyword_of_clashes (hw ▸ h.clashes hc r) rest

/-- No number starts with anything else. -/
theorem number_of_endsNumber {cs : List Char} (h : EndsNumber cs) : number cs = none := by
  refine Option.eq_none_iff_forall_ne_some.2 fun ⟨x, r⟩ hsome ↦ ?_
  obtain ⟨n, rfl, hn⟩ := exists_of_number hsome
  obtain ⟨c, n, rfl⟩ := hn.number.exists_cons
  exact h c rfl (hn.number.numeral c List.mem_cons_self)

/-! ### Reading dimensions -/

/-- The names of the units are made of letters. -/
theorem letters_of_mem_units : ∀ e ∈ units,
    e.1.toList ≠ [] ∧ e.1.toList.all Char.isAlpha = true := by
  decide

theorem Breaks.endsNumber {rest : List Char} (h : Breaks rest) : EndsNumber rest := fun c hc ↦ by
  have hbreak := h c hc
  simp only [List.mem_cons, List.not_mem_nil, or_false] at hbreak
  rcases hbreak with rfl | rfl | rfl | rfl | rfl | rfl <;>
    exact not_or.2 ⟨by decide, by decide⟩

/-- What stands after the number of a length is told apart from the number and from a percent
sign. -/
theorem endsNumber_unit {u rest : List Char} {factor : Scalar}
    (h : Dimension.UnitWritten u factor) (hrest : Breaks rest) :
    EndsNumber (u ++ rest) ∧ char '%' (u ++ rest) = none := by
  cases h with
  | none =>
    refine ⟨hrest.endsNumber, ?_⟩
    cases rest with
    | nil => rfl
    | cons c r =>
      refine if_neg ?_
      rintro rfl
      exact absurd (hrest '%' rfl) (by decide)
  | @unit name factor u known word =>
    obtain ⟨hne, hletters⟩ := letters_of_mem_units _ known
    have hu : u ≠ [] := fun hnil ↦ hne (by rw [← word, hnil, List.map_nil])
    obtain ⟨c, r, rfl⟩ := List.exists_cons_of_ne_nil hu
    have hc : c.toLower.isAlpha = true :=
      List.all_eq_true.1 hletters _ (word ▸ List.mem_map_of_mem List.mem_cons_self)
    refine ⟨endsNumber_of_letter hc _, if_neg ?_⟩
    rintro rfl
    exact absurd hc (by decide)

theorem optional_unit_append {u rest : List Char} {factor : Scalar}
    (h : Dimension.UnitWritten u factor) (hrest : Breaks rest) :
    ∃ found, unit.optional (u ++ rest) = some (found, rest) ∧ found.getD 1 = factor := by
  cases h with
  | none =>
    refine ⟨none, optional_of_none (firstOf_eq_none fun p hp ↦ ?_), rfl⟩
    obtain ⟨⟨name, factor⟩, hmem, rfl⟩ := List.mem_map.1 hp
    obtain ⟨hne, hletters⟩ := letters_of_mem_units _ hmem
    obtain ⟨c, w, hname⟩ := List.exists_cons_of_ne_nil hne
    have hc : c.isAlpha = true := List.all_eq_true.1 hletters c (hname ▸ List.mem_cons_self)
    exact map_of_none (hname ▸ word_of_breaks hc hrest)
  | unit known word =>
    have hread := firstOf_keywords known (by decide) word rest
    exact ⟨_, optional_of_some hread, rfl⟩

/-- **A length is read to its end.** -/
theorem length_append {n u rest : List Char} {x factor : Scalar} (hn : Scalar.Written n x)
    (hu : Dimension.UnitWritten u factor) (hrest : Breaks rest) :
    length (n ++ u ++ rest) = some (x * factor, rest) := by
  obtain ⟨found, hfound, rfl⟩ := optional_unit_append hu hrest
  rw [length, List.append_assoc, number_append hn (endsNumber_unit hu hrest).1]
  simp [hfound]

/-- **A dimension is read to its end**, which is at a break. -/
theorem dimension_append {w rest : List Char} {d : Dimension} (h : Dimension.Written w d)
    (hrest : Breaks rest) : dimension (w ++ rest) = some (d, rest) := by
  cases h with
  | auto word => exact firstOf_of_some (keyword_append word rest)
  | @percent n x number =>
    have hnumber : Reader.number (n ++ '%' :: rest) = some (x, '%' :: rest) :=
      number_append number fun c hc ↦ by
        rw [← Option.some.inj hc]
        exact not_or.2 ⟨by decide, by decide⟩
    rw [List.append_assoc, dimension, firstOf_of_none]
    · exact firstOf_of_some (map_eq_some_iff.2
        ⟨x, followedBy_eq_some_iff.2 ⟨_, (), hnumber, char_cons '%' rest⟩, rfl⟩)
    · exact keyword_of_number rfl (by decide) number.number _
  | @px n u x factor number unit =>
    obtain ⟨hends, hpercent⟩ := endsNumber_unit unit hrest
    have hlength := length_append number unit hrest
    rw [List.append_assoc] at hlength ⊢
    rw [dimension, firstOf_of_none, firstOf_of_none]
    · exact firstOf_of_some (map_eq_some_iff.2 ⟨_, hlength, rfl⟩)
    · exact map_of_none (followedBy_of_none_right (number_append number hends) hpercent)
    · exact keyword_of_number rfl (by decide) number.number _

theorem dimension_of_breaks {rest : List Char} (h : Breaks rest) : dimension rest = none := by
  have hnumber : number rest = none := number_of_endsNumber h.endsNumber
  rw [dimension, firstOf_of_none, firstOf_of_none, firstOf_of_none]
  · rfl
  · rw [map, length, hnumber]
    rfl
  · exact map_of_none (followedBy_of_none hnumber)
  · exact map_of_none (word_of_breaks (by decide) h)

end Reader

/-! ### Complete texts -/

/-- A letter is no blank, in either letter case. -/
theorem Text.not_blank_of_letter {c : Char} (h : c.toLower.isAlpha = true) :
    c.isWhitespace = false := by
  rw [Bool.eq_false_iff]
  intro hblank
  rcases Text.eq_of_isWhitespace hblank with rfl | rfl | rfl | rfl <;> exact absurd h (by decide)

theorem Text.not_blank_of_letters {u w : List Char} (h : u.map Char.toLower = w)
    (hw : w.all Char.isAlpha = true) : ∀ c ∈ u, c.isWhitespace = false :=
  fun _ hc ↦ not_blank_of_letter (List.all_eq_true.1 hw _ (h ▸ List.mem_map_of_mem hc))

theorem Dimension.Written.not_blank {w : List Char} {d : Dimension} (h : Dimension.Written w d) :
    ∀ c ∈ w, c.isWhitespace = false := by
  cases h with
  | auto word => exact Text.not_blank_of_letters word (by decide)
  | percent number =>
    refine List.forall_mem_append.2 ⟨fun c hc ↦ (number.number.numeral c hc).not_blank, ?_⟩
    simp
  | px number unit =>
    refine List.forall_mem_append.2 ⟨fun c hc ↦ (number.number.numeral c hc).not_blank, ?_⟩
    cases unit with
    | none => exact fun c hc ↦ absurd hc List.not_mem_nil
    | unit known word =>
      exact Text.not_blank_of_letters word (Reader.letters_of_mem_units _ known).2

theorem Dimension.Written.ne_nil {w : List Char} {d : Dimension} (h : Dimension.Written w d) :
    w ≠ [] := by
  cases h with
  | auto word =>
    rintro rfl
    exact absurd word (by decide)
  | percent number => exact List.append_ne_nil_of_right_ne_nil _ (List.cons_ne_nil _ _)
  | px number unit =>
    obtain ⟨c, r, rfl⟩ := number.number.exists_cons
    exact List.cons_ne_nil _ _

namespace Reader

end Reader

end ViewCompiler
