import Mathlib
import ViewCompiler.Proofs.Style.Readers
import ViewCompiler.Proofs.Text.Words

/-!
# Texts of colors

An opaque color can be printed in three forms: two hexadecimal digits for each channel, the color
function with three decimal channels, and for some colors a name (`Color.Printed`). A text that
differs from one of these in letter case only stands for the same color (`Color.Written`).

The letter case is dealt with once for each kind of character: of a hexadecimal digit only its value
matters (`Color.hexByte_of_toLower`), and the other forms are compared in lower case
(`Color.ofText_of_toLower`).

A reader of style values first cuts the text of a color off, and then reads it. The text may hold
blanks and commas itself, but it is cut off at its end whenever a break follows
(`Reader.colorToken_append`), so that the color is read from a text in which more follows
(`Reader.color_append`).
-/

namespace ViewCompiler

/-! ### Letter case -/

namespace Text

/-- A character is one of the two forms of its lower-case form. -/
theorem eq_or_eq_toUpper {c d : Char} (h : c.toLower = d) : c = d ∨ c = d.toUpper := by
  by_cases hupper : c.isUpper = true
  · refine .inr ?_
    rw [← h, Char.toUpper_toLower_eq_toUpper,
      Char.toUpper_eq_of_not_isLower (Char.not_isLower_of_isUpper hupper)]
  · exact .inl (h ▸ (Char.toLower_eq_of_not_isUpper hupper).symm)

/-- A character without letter case is told from its lower-case form. -/
theorem eq_of_toLower {c d : Char} (h : c.toLower = d) (hd : d.toUpper = d) : c = d :=
  (eq_or_eq_toUpper h).elim id fun heq ↦ heq.trans hd

theorem isBlank_of_bounds {c : Char} (h : 33 ≤ c.toNat ∧ c.toNat ≤ 126) : isBlank c = false := by
  simp [isBlank]
  omega

theorem isBlank_of_isAlpha {c : Char} (h : c.isAlpha = true) : isBlank c = false := by
  refine isBlank_of_bounds ?_
  simp [Char.isAlpha, Char.isUpper, Char.isLower, UInt32.le_iff_toNat_le] at h
  omega

theorem isBlank_toLower (c : Char) : isBlank c.toLower = isBlank c := by
  by_cases hupper : c.isUpper = true
  · have halpha : c.isAlpha = true := by rw [Char.isAlpha, hupper, Bool.true_or]
    rw [isBlank_of_isAlpha halpha, isBlank_of_isAlpha (by rwa [Char.isAlpha_toLower_eq_isAlpha])]
  · rw [Char.toLower_eq_of_not_isUpper hupper]

/-- Blanks at the ends do not depend on the letter case. -/
theorem Bare.of_toLower {cs : List Char} (h : Bare isBlank (cs.map Char.toLower)) :
    Bare isBlank cs where
  head c hc := by
    rw [← isBlank_toLower]
    exact h.head _ (by rw [List.head?_map]; exact Option.mem_map_of_mem _ hc)
  last c hc := by
    rw [← isBlank_toLower]
    exact h.last _ (by rw [List.getLast?_map]; exact Option.mem_map_of_mem _ hc)

end Text

namespace Color

/-- **The texts in which an opaque color is printed.** -/
inductive Printed : List Char → Color → Prop
  | hex (r g b : UInt8) : Printed (rgb r g b).rgbHex.toList (rgb r g b)
  | function (r g b : UInt8) :
      Printed ("rgb(" ++ toString r.toNat ++ ", " ++ toString g.toNat ++ ", " ++
        toString b.toNat ++ ")").toList (rgb r g b)
  | name {name : String} {c : Color} (known : (name, c) ∈ named) : Printed name.toList c

/-- **The text of an opaque color**, in any letter case. -/
def Written (w : List Char) (c : Color) : Prop :=
  ∃ u, Printed u c ∧ w.map Char.toLower = u.map Char.toLower

/-! ### Hexadecimal digits -/

theorem isBlank_of_isHexDigit {c : Char} (h : isHexDigit c = true) : Text.isBlank c = false := by
  refine Text.isBlank_of_bounds ?_
  simp [isHexDigit, Char.isDigit_iff_toNat, Char.le_def, UInt32.le_iff_toNat_le] at h
  omega

/-- A digit in one of the two letter cases. -/
theorem hexValue_of_toLower {n : Nat} (hn : n < 16) {c : Char}
    (h : c.toLower = n.digitChar.toUpper.toLower) : isHexDigit c = true ∧ hexValue c = n := by
  have hlower : ∀ n : Fin 16, n.val.digitChar.toUpper.toLower = n.val.digitChar := by decide
  have hdigit : ∀ n : Fin 16, isHexDigit n.val.digitChar = true ∧
      isHexDigit n.val.digitChar.toUpper = true := by decide
  have hvalue : ∀ n : Fin 16, hexValue n.val.digitChar = n ∧
      hexValue n.val.digitChar.toUpper = n := by decide
  rcases Text.eq_or_eq_toUpper (h.trans (hlower ⟨n, hn⟩)) with rfl | rfl
  · exact ⟨(hdigit ⟨n, hn⟩).1, (hvalue ⟨n, hn⟩).1⟩
  · exact ⟨(hdigit ⟨n, hn⟩).2, (hvalue ⟨n, hn⟩).2⟩

/-- **Two digits of a byte** are read as the byte. -/
theorem hexByte_of_toLower {x : UInt8} {ds : List Char}
    (h : ds.map Char.toLower = (byteHex x).map Char.toLower) :
    ∃ a b, ds = [a, b] ∧ isHexDigit a = true ∧ isHexDigit b = true ∧ hexByte a b = x := by
  obtain ⟨a, b, rfl⟩ : ∃ a b, ds = [a, b] := List.length_eq_two.1 (by
    have hlength := congrArg List.length h
    rwa [List.length_map, List.length_map] at hlength)
  obtain ⟨ha, hb⟩ : a.toLower = (x.toNat / 16).digitChar.toUpper.toLower ∧
      b.toLower = (x.toNat % 16).digitChar.toUpper.toLower := by
    simpa [byteHex] using h
  have hx : x.toNat < 256 := x.toNat_lt
  obtain ⟨hdigit, hvalue⟩ := hexValue_of_toLower (by omega) ha
  obtain ⟨hdigit', hvalue'⟩ := hexValue_of_toLower (by omega) hb
  refine ⟨a, b, rfl, hdigit, hdigit', ?_⟩
  rw [hexByte, hvalue, hvalue', Nat.div_add_mod, UInt8.ofNat_toNat]

/-- **The digits of some bytes**, in one of the two letter cases. -/
theorem exists_of_bytes {bs : List UInt8} {w : List Char}
    (h : w.map Char.toLower = (bs.flatMap byteHex).map Char.toLower) :
    ∃ ps : List (Char × Char), w = ps.flatMap (fun p ↦ [p.1, p.2]) ∧
      ps.map (fun p ↦ hexByte p.1 p.2) = bs ∧
      ∀ p ∈ ps, isHexDigit p.1 = true ∧ isHexDigit p.2 = true := by
  induction bs generalizing w with
  | nil => exact ⟨[], by simpa using h, rfl, by simp⟩
  | cons b bs ih =>
    rw [List.flatMap_cons, List.map_append] at h
    obtain ⟨ds, r, rfl, hds, hr⟩ := List.map_eq_append_iff.1 h
    obtain ⟨d, e, rfl, hd, he, hbyte⟩ := hexByte_of_toLower hds
    obtain ⟨ps, rfl, hps, hdigits⟩ := ih hr
    exact ⟨(d, e) :: ps, rfl, by rw [List.map_cons, hbyte, hps],
      List.forall_mem_cons.2 ⟨⟨hd, he⟩, hdigits⟩⟩

/-- The color that some bytes stand for: three channels, and an opacity if there is one more. -/
inductive OfBytes : List UInt8 → Color → Prop
  | channels (r g b : UInt8) : OfBytes [r, g, b] (rgb r g b)
  | opacity (r g b a : UInt8) : OfBytes [r, g, b, a] (rgba r g b (Scalar.ofByte a / 255))

/-- **The digits of the bytes of a color** are read as the color. -/
theorem OfBytes.exists_digits {bs : List UInt8} {c : Color} (hc : OfBytes bs c) {w : List Char}
    (h : w.map Char.toLower = ('#' :: bs.flatMap byteHex).map Char.toLower) :
    ∃ ds, w = '#' :: ds ∧ (∀ d ∈ ds, isHexDigit d = true) ∧ ds ≠ [] ∧
      ∀ text, ofHexDigits text ds = .ok c := by
  obtain ⟨e, ds, rfl, he, hds⟩ := List.map_eq_cons_iff.1 h
  obtain rfl : e = '#' := Text.eq_of_toLower he (by decide)
  obtain ⟨ps, rfl, hps, hdigits⟩ := exists_of_bytes hds
  have hall : ∀ d ∈ ps.flatMap (fun p ↦ [p.1, p.2]), isHexDigit d = true := fun d hd ↦ by
    obtain ⟨p, hp, hd⟩ := List.mem_flatMap.1 hd
    rcases List.mem_pair.1 hd with rfl | rfl
    · exact (hdigits p hp).1
    · exact (hdigits p hp).2
  have hread : ∀ text, ofHexDigits text (ps.flatMap fun p ↦ [p.1, p.2]) = .ok c := fun text ↦ by
    unfold ofHexDigits
    rw [List.all_eq_true.2 hall, Bool.not_true, if_neg Bool.false_ne_true]
    cases hc with
    | channels =>
      simp only [List.map_eq_cons_iff, List.map_eq_nil_iff] at hps
      obtain ⟨p, _, rfl, rfl, q, _, rfl, rfl, r, _, rfl, rfl, rfl⟩ := hps
      rfl
    | opacity =>
      simp only [List.map_eq_cons_iff, List.map_eq_nil_iff] at hps
      obtain ⟨p, _, rfl, rfl, q, _, rfl, rfl, r, _, rfl, rfl, s, _, rfl, rfl, rfl⟩ := hps
      rfl
  refine ⟨_, rfl, hall, fun hnil ↦ ?_, hread⟩
  have herror := hread ""
  rw [hnil] at herror
  exact absurd herror (by simp [ofHexDigits])

/-- The digits of a color in one of the two letter cases. -/
theorem exists_of_rgbHex {r g b : UInt8} {w : List Char}
    (h : w.map Char.toLower = (rgb r g b).rgbHex.toList.map Char.toLower) :
    ∃ ds, w = '#' :: ds ∧ (∀ c ∈ ds, isHexDigit c = true) ∧ ds ≠ [] ∧
      ∀ text, ofHexDigits text ds = .ok (rgb r g b) :=
  (OfBytes.channels r g b).exists_digits (by simpa [rgbHex, rgb] using h)

/-! ### Decimal channels -/

theorem channelOfChars_toString (x : UInt8) :
    channelOfChars (toString x.toNat).toList = .ok x := by
  have hall : ∀ n : Fin 256, (channelOfChars (toString n.val).toList).toOption =
      some (UInt8.ofNat n.val) := by
    decide +kernel
  have hx := hall ⟨x.toNat, x.toNat_lt⟩
  rw [UInt8.ofNat_toNat] at hx
  cases hchannel : channelOfChars (toString x.toNat).toList with
  | error e =>
    rw [hchannel] at hx
    exact absurd hx (by simp [Except.toOption])
  | ok y =>
    rw [hchannel] at hx
    exact congrArg Except.ok (Option.some.inj hx)

/-- The characters between the components of a color function. -/
def isSeparator (c : Char) : Bool := c == ',' || c == '/' || c == ' '

theorem components_eq (cs : List Char) : components cs =
    ((Text.pieces isSeparator cs).map Text.trimChars).filter fun p ↦ !p.isEmpty := rfl

theorem components_append {c : Char} (hc : isSeparator c = true) (cs ds : List Char) :
    components (cs ++ c :: ds) = components cs ++ components ds := by
  rw [components_eq, components_eq, components_eq, Text.pieces_append_cons hc, List.map_append,
    List.filter_append]

/-- A component without separators and blanks in it. -/
theorem components_of_word {cs : List Char} (hne : cs ≠ [])
    (hseparator : ∀ c ∈ cs, isSeparator c = false) (hblank : ∀ c ∈ cs, Text.isBlank c = false) :
    components cs = [cs] := by
  have hbare : Text.trimChars cs = cs := Text.strip_of_bare (.of_forall hblank)
  rw [components_eq, Text.pieces_of_forall hseparator, List.map_singleton, hbare]
  simp [hne]

theorem isDigit_of_mem_toString {n : Nat} {c : Char} (h : c ∈ (toString n).toList) :
    c.isDigit = true := by
  rw [Nat.toString_eq_ofList_toDigits, String.toList_ofList] at h
  exact Nat.isDigit_of_mem_toDigits (by decide) (by decide) h

theorem components_digits (x : UInt8) :
    components (toString x.toNat).toList = [(toString x.toNat).toList] := by
  refine components_of_word ?_ (fun c hc ↦ ?_) fun c hc ↦ ?_
  · rw [Nat.toString_eq_ofList_toDigits, String.toList_ofList]
    exact Nat.toDigits_ne_nil
  · rw [Bool.eq_false_iff]
    intro hseparator
    have hcases : c = ',' ∨ c = '/' ∨ c = ' ' := by
      simpa [isSeparator, or_assoc] using hseparator
    rcases hcases with rfl | rfl | rfl <;>
      exact absurd (isDigit_of_mem_toString hc) (by decide)
  · obtain ⟨hlow, hhigh⟩ := Char.isDigit_iff_toNat.1 (isDigit_of_mem_toString hc)
    exact Text.isBlank_of_bounds
      ⟨Nat.le_trans (by decide) hlow, Nat.le_trans hhigh (by decide)⟩

/-- What follows the opening parenthesis of the color function with three decimal channels. -/
def functionBody (r g b : UInt8) : List Char :=
  (toString r.toNat).toList ++ ',' :: ' ' :: ((toString g.toNat).toList ++ ',' :: ' ' ::
    (toString b.toNat).toList)

theorem components_functionBody (r g b : UInt8) : components (functionBody r g b) =
    [(toString r.toNat).toList, (toString g.toNat).toList, (toString b.toNat).toList] := by
  have hspace : ∀ cs, components (' ' :: cs) = components cs :=
    fun cs ↦ components_append (by decide) [] cs
  rw [functionBody, components_append (by decide), hspace, components_append (by decide), hspace,
    components_digits, components_digits, components_digits]
  rfl

/-- The color function with three decimal channels. -/
theorem ofFunctionBody_decimal (r g b : UInt8) :
    ofFunctionBody (functionBody r g b ++ [')']) = .ok (rgb r g b) := by
  rw [ofFunctionBody, Text.dropTrailing?_append]
  simp only [components_functionBody, channelOfChars_toString]
  rfl

/-- There is no letter and no closing parenthesis in the channels. -/
theorem mem_functionBody {r g b : UInt8} {c : Char} (h : c ∈ functionBody r g b) :
    ¬ c.isUpper = true ∧ c ≠ ')' := by
  have hdigit : ∀ n : Nat, c ∈ (toString n).toList → ¬ c.isUpper = true ∧ c ≠ ')' := fun n hc ↦ by
    have hd := isDigit_of_mem_toString hc
    refine ⟨fun hupper ↦ ?_, ?_⟩
    · rw [Char.isDigit_iff_toNat] at hd
      simp [Char.isUpper, UInt32.le_iff_toNat_le] at hupper
      exact absurd (Nat.le_trans hupper.1 hd.2) (by decide)
    · rintro rfl
      exact absurd hd (by decide)
  simp only [functionBody, List.mem_append, List.mem_cons] at h
  rcases h with h | rfl | rfl | h | rfl | rfl | h
  · exact hdigit _ h
  · decide
  · decide
  · exact hdigit _ h
  · decide
  · decide
  · exact hdigit _ h

/-- The color function in lower case. -/
theorem toLower_function (r g b : UInt8) :
    ("rgb(" ++ toString r.toNat ++ ", " ++ toString g.toNat ++ ", " ++
      toString b.toNat ++ ")").toList.map Char.toLower =
        "rgb(".toList ++ (functionBody r g b ++ [')']) := by
  have hbody : (functionBody r g b).map Char.toLower = functionBody r g b :=
    (List.map_congr_left fun c hc ↦
      Char.toLower_eq_of_not_isUpper (mem_functionBody hc).1).trans (List.map_id _)
  have hlist : ("rgb(" ++ toString r.toNat ++ ", " ++ toString g.toNat ++ ", " ++
      toString b.toNat ++ ")").toList = "rgb(".toList ++ (functionBody r g b ++ [')']) := by
    simp [functionBody]
  have hname : "rgb(".toList.map Char.toLower = "rgb(".toList := by decide
  rw [hlist, List.map_append, List.map_append, hname, hbody]
  rfl

/-- The color function in any letter case is closed by the first closing parenthesis in it. -/
theorem exists_of_function {r g b : UInt8} {w : List Char}
    (hlow : w.map Char.toLower = "rgb(".toList ++ (functionBody r g b ++ [')'])) :
    ∃ u inner, w = u ++ (inner ++ [')']) ∧ u.map Char.toLower = "rgb(".toList ∧
      ∀ c ∈ inner, c ≠ ')' := by
  obtain ⟨u, v, rfl, hu, hv⟩ := List.map_eq_append_iff.1 hlow
  obtain ⟨inner, e, rfl, hinner, he⟩ := List.map_eq_append_iff.1 hv
  obtain ⟨c, rfl, hc⟩ := List.map_eq_singleton_iff.1 he
  obtain rfl : c = ')' := Text.eq_of_toLower hc (by decide)
  refine ⟨u, inner, rfl, hu, ?_⟩
  rintro c hc rfl
  have hmem : ')' ∈ functionBody r g b := hinner ▸ List.mem_map_of_mem hc
  exact (mem_functionBody hmem).2 rfl

theorem bare_function (r g b : UInt8) :
    Text.Bare Text.isBlank ("rgb(".toList ++ (functionBody r g b ++ [')'])) where
  head c hc := by
    have hfirst : some 'r' = some c := hc
    obtain rfl := Option.some.inj hfirst
    decide
  last c hc := by
    rw [← List.append_assoc, List.getLast?_concat] at hc
    obtain rfl := Option.some.inj hc
    decide

/-- **A text without a number sign** is compared in lower case. -/
theorem ofText_of_toLower {w low : List Char} (hlow : w.map Char.toLower = low)
    (hbare : Text.Bare Text.isBlank low) (hhash : low.head? ≠ some '#') :
    ofText (String.ofList w) =
      if low = "transparent".toList then .ok transparent
      else
        match Text.dropLeading? "rgba(".toList low <|> Text.dropLeading? "rgb(".toList low with
        | some body => ofFunctionBody body
        | none =>
          match named.lookup (String.ofList low) with
          | some c => .ok c
          | none => .error (.unrecognised (String.ofList w)) := by
  subst hlow
  rw [ofText, Text.trim_of_bare hbare.of_toLower]
  simp only [String.toList_ofList]
  split
  · exact absurd rfl hhash
  · rfl

/-- The names of colors are lower-case letters, and none of them starts like another form. -/
theorem letters_of_mem_named : ∀ e ∈ named, e.1.toList ≠ [] ∧
    e.1.toList.all Char.isLower = true ∧ e.1.toList ≠ "transparent".toList ∧
    Reader.clashes "rgba(".toList e.1.toList = true ∧
    Reader.clashes "rgb(".toList e.1.toList = true := by
  decide

theorem isLower_of_mem_named {e : String × Color} (h : e ∈ named) :
    ∀ c ∈ e.1.toList, c.isLower = true :=
  List.all_eq_true.1 (letters_of_mem_named e h).2.1

theorem toLower_of_mem_named {e : String × Color} (h : e ∈ named) :
    e.1.toList.map Char.toLower = e.1.toList :=
  (List.map_congr_left fun c hc ↦ Char.toLower_eq_of_not_isUpper
    (Char.not_isUpper_of_isLower (isLower_of_mem_named h c hc))).trans (List.map_id _)

/-- A name in any letter case is made of letters. -/
theorem letters_of_toLower_named {e : String × Color} (h : e ∈ named) {w : List Char}
    (hlow : w.map Char.toLower = e.1.toList) : w ≠ [] ∧ ∀ c ∈ w, c.isAlpha = true := by
  refine ⟨fun hnil ↦ ?_, fun c hc ↦ ?_⟩
  · exact (letters_of_mem_named e h).1 (by rw [← hlow, hnil, List.map_nil])
  · have hmem : c.toLower ∈ e.1.toList := hlow ▸ List.mem_map_of_mem hc
    have hlower := isLower_of_mem_named h _ hmem
    rwa [Char.isLower_toLower_eq_isAlpha] at hlower

theorem lookup_of_mem_named : ∀ e ∈ named, named.lookup (String.ofList e.1.toList) = some e.2 := by
  decide

theorem dropLeading?_of_clashes {w u : List Char} (h : Reader.clashes w u = true) :
    Text.dropLeading? w u = none := by
  induction w generalizing u with
  | nil => exact absurd h (by simp [Reader.clashes])
  | cons c w ih =>
    cases u with
    | nil => rfl
    | cons d u =>
      rw [Reader.clashes, Bool.or_eq_true, bne_iff_ne] at h
      rw [Text.dropLeading?]
      split
      · rename_i hcd
        exact ih (h.resolve_left (not_not.2 hcd))
      · rfl

/-- **The text of an opaque color is read as the color.** -/
theorem Written.ofText {w : List Char} {c : Color} (h : Written w c) :
    ofText (String.ofList w) = .ok c := by
  obtain ⟨u, hu, hlow⟩ := h
  cases hu with
  | hex r g b =>
    obtain ⟨ds, rfl, hdigits, hne, hread⟩ := exists_of_rgbHex hlow
    have hbare : Text.Bare Text.isBlank ('#' :: ds) := .of_forall <|
      List.forall_mem_cons.2 ⟨by decide, fun c hc ↦ isBlank_of_isHexDigit (hdigits c hc)⟩
    rw [Color.ofText, Text.trim_of_bare hbare]
    simp only [String.toList_ofList]
    exact hread _
  | function r g b =>
    rw [toLower_function] at hlow
    have hhash : ("rgb(".toList ++ (functionBody r g b ++ [')'])).head? ≠ some '#' :=
      fun heq ↦ absurd (Option.some.inj heq) (by decide : 'r' ≠ '#')
    rw [ofText_of_toLower hlow (bare_function r g b) hhash, if_neg]
    · exact ofFunctionBody_decimal r g b
    · exact fun heq ↦ absurd (List.cons.inj heq).1 (by decide : 'r' ≠ 't')
  | @name name c known =>
    obtain ⟨-, -, htransparent, hrgba, hrgb⟩ := letters_of_mem_named _ known
    obtain ⟨-, halpha⟩ := letters_of_toLower_named known (toLower_of_mem_named known)
    have hhash : name.toList.head? ≠ some '#' := fun heq ↦
      absurd (halpha '#' (List.mem_of_mem_head? heq)) (by decide)
    have hbare : Text.Bare Text.isBlank name.toList :=
      .of_forall fun c hc ↦ Text.isBlank_of_isAlpha (halpha c hc)
    rw [toLower_of_mem_named known] at hlow
    rw [ofText_of_toLower hlow hbare hhash, if_neg htransparent, dropLeading?_of_clashes hrgba,
      dropLeading?_of_clashes hrgb]
    have hlookup := lookup_of_mem_named _ known
    simp only [hlookup]
    rfl

/-- The text of a color starts with a number sign or a letter. -/
theorem Written.exists_cons {w : List Char} {c : Color} (h : Written w c) :
    ∃ d r, w = d :: r ∧ (d = '#' ∨ d.isAlpha = true) := by
  obtain ⟨u, hu, hlow⟩ := h
  cases hu with
  | hex r g b =>
    obtain ⟨ds, rfl, -⟩ := exists_of_rgbHex hlow
    exact ⟨'#', ds, rfl, .inl rfl⟩
  | function r g b =>
    rw [toLower_function] at hlow
    obtain ⟨d, r, rfl, hd, -⟩ := List.map_eq_cons_iff.1 hlow
    refine ⟨d, r, rfl, .inr ?_⟩
    rw [← Char.isAlpha_toLower_eq_isAlpha, hd]
    decide
  | name known =>
    rw [toLower_of_mem_named known] at hlow
    obtain ⟨hne, hletters⟩ := letters_of_toLower_named known hlow
    obtain ⟨d, r, rfl⟩ := List.exists_cons_of_ne_nil hne
    exact ⟨d, r, rfl, .inr (hletters d List.mem_cons_self)⟩

end Color

/-! ### Cutting the text of a color off -/

namespace Reader

open Color

theorem takeSome_append {p : Char → Bool} {w rest : List Char} (hne : w ≠ [])
    (hw : ∀ c ∈ w, p c = true) (hrest : ∀ c ∈ rest.head?, p c = false) :
    takeSome p (w ++ rest) = some (w, rest) := by
  rw [takeSome, Text.takeWhile_append_left hw hrest, Text.dropWhile_append_left hw hrest,
    if_neg (by simpa using hne)]

/-- **A color function** is cut off behind the first closing parenthesis. -/
theorem functionToken_append {name : String} {u inner : List Char}
    (hu : u.map Char.toLower = name.toList) (hinner : ∀ c ∈ inner, c ≠ ')') (rest : List Char) :
    functionToken name (u ++ (inner ++ ')' :: rest)) = some (u ++ (inner ++ [')']), rest) := by
  have hlength : name.length = u.length := by
    rw [← String.length_toList, ← hu, List.length_map]
  have hopen : ∀ c ∈ inner, (c != ')') = true := fun c hc ↦ bne_iff_ne.2 (hinner c hc)
  have hclosed : ∀ c ∈ (')' :: rest).head?, (c != ')') = false := by simp
  rw [functionToken, word_append hu]
  simp [Text.dropWhile_append_left hopen hclosed, Text.takeWhile_append_left hopen hclosed,
    hlength]

theorem functionToken_of_clashes {name : String} {u : List Char}
    (h : clashes name.toList (u.map Char.toLower) = true) (rest : List Char) :
    functionToken name (u ++ rest) = none := by
  rw [functionToken, word_of_clashes h]
  rfl

/-- **The text of a color is cut off at its end**, which is at a break. -/
theorem colorToken_append {w rest : List Char} {c : Color} (h : Written w c)
    (hrest : Breaks rest) : colorToken (w ++ rest) = some (w, rest) := by
  obtain ⟨u, hu, hlow⟩ := h
  cases hu with
  | hex r g b =>
    obtain ⟨ds, rfl, hdigits, hne, -⟩ := exists_of_rgbHex hlow
    have hend : ∀ c ∈ rest.head?, isHexDigit c = false := hrest.not (by decide)
    rw [colorToken, firstOf_of_none (functionToken_of_clashes rfl rest),
      firstOf_of_none (functionToken_of_clashes rfl rest)]
    refine firstOf_of_some (map_eq_some_iff.2 ⟨ds, ?_, rfl⟩)
    exact after_eq_some_iff.2 ⟨(), _, char_cons '#' _, takeSome_append hne hdigits hend⟩
  | function r g b =>
    rw [toLower_function] at hlow
    obtain ⟨u, inner, rfl, hu, hopen⟩ := exists_of_function hlow
    -- the function with an opacity is tried first, and its name is longer
    have hclash : clashes "rgba(".toList ((u ++ (inner ++ [')'])).map Char.toLower) = true :=
      hlow ▸ rfl
    rw [colorToken, firstOf_of_none (functionToken_of_clashes hclash rest)]
    refine firstOf_of_some ?_
    have htoken := functionToken_append hu hopen rest
    rwa [List.append_assoc, List.append_assoc]
  | name known =>
    obtain ⟨-, -, -, hrgba, hrgb⟩ := letters_of_mem_named _ known
    rw [toLower_of_mem_named known] at hlow
    obtain ⟨hne, hletters⟩ := letters_of_toLower_named known hlow
    have hend : ∀ c ∈ rest.head?, c.isAlpha = false := hrest.not (by decide)
    rw [colorToken, firstOf_of_none (functionToken_of_clashes (hlow ▸ hrgba) rest),
      firstOf_of_none (functionToken_of_clashes (hlow ▸ hrgb) rest), firstOf_of_none]
    · exact firstOf_of_some (takeSome_append hne hletters hend)
    · -- a name does not start with a number sign
      refine map_of_none (after_of_none ?_)
      obtain ⟨d, r, rfl⟩ := List.exists_cons_of_ne_nil hne
      refine if_neg ?_
      rintro rfl
      exact absurd (hletters _ List.mem_cons_self) (by decide)

/-- **A color is read to its end.** -/
theorem color_append {w rest : List Char} {c : Color} (h : Written w c) (hrest : Breaks rest) :
    color (w ++ rest) = some (c, rest) := by
  rw [color, colorToken_append h hrest]
  simp [h.ofText, Except.toOption]

end Reader

end ViewCompiler
