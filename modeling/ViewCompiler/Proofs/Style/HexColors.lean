import ViewCompiler.Proofs.Style.Colors

/-!
# The text of a color, read again

Two forms with an opacity are in use. A resource has the opacity in front, `#AARRGGBB`, and this is
what `Color.hex` writes; in a style it stands at the end, `#RRGGBBAA`, and so `Color.ofText` reads
it. A full opacity is not written, so an opaque color is read back as it was. Every other text is
read too, but all four bytes have moved on by one place (`Color.ofText_hex`). Blanks around the text
and its letter case change nothing.

The four bytes decide what is read. An opacity that comes from a byte is written as that byte
(`Color.alphaByte_rgba`), and an opacity of one or more as the greatest byte
(`Color.alphaByte_of_isOpaque`), whatever it is: neither the limits nor `NaN` need an assumption.
-/

namespace ViewCompiler

/-! ### Full opacities -/

namespace Scalar

open Float.Model (UnpackedFloat)

/-- A number as the arithmetic of core takes it apart. -/
def unpack (x : Scalar) : UnpackedFloat := x.toModel.unpack

theorem lt_iff {x y : Scalar} : x < y ↔ x.unpack.compare y.unpack = some .lt := by
  show (decide ((x.toModel.unpack.compare y.toModel.unpack == some .lt) = true)) = true ↔ _
  rw [decide_eq_true_eq, beq_iff_eq]
  rfl

theorem le_iff {x y : Scalar} : x ≤ y ↔ (x.unpack.compare y.unpack).any (·.isLE) = true := by
  show (decide ((x.toModel.unpack.compare y.toModel.unpack).any (·.isLE) = true)) = true ↔ _
  rw [decide_eq_true_eq]
  rfl

theorem mul_eq_mul {x y : Scalar} (h : x.unpack = y.unpack) (z : Scalar) : x * z = y * z := by
  show Float32.ofModel (.pack (.mul _ x.unpack z.unpack)) =
    .ofModel (.pack (.mul _ y.unpack z.unpack))
  rw [h]

theorem unpack_zero : (0 : Scalar).unpack = .zero .positive := rfl

theorem unpack_one : (1 : Scalar).unpack = .finite .positive 8388608 (-23) (by decide) := rfl

/-- A number from one on is not below zero, and it is one unless it is above. -/
theorem of_one_le {x : Scalar} (h : 1 ≤ x) :
    ¬ x < 0 ∧ (1 < x ∨ x.unpack = (1 : Scalar).unpack) := by
  rw [le_iff, unpack_one] at h
  rw [lt_iff, lt_iff, unpack_zero, unpack_one]
  generalize x.unpack = u at h ⊢
  cases u with
  | notANumber => exact absurd h Bool.false_ne_true
  | zero s => exact absurd h Bool.false_ne_true
  | infinity s =>
    cases s with
    | negative => exact absurd h Bool.false_ne_true
    | positive => exact ⟨nofun, .inl rfl⟩
  | finite s m e hm =>
    cases s with
    | negative => exact absurd h Bool.false_ne_true
    | positive =>
      -- numbers above zero are compared by their exponents first
      have hle : ((Ord.compare (-23) e).then (Ord.compare 8388608 m)).isLE = true := h
      refine ⟨nofun, ?_⟩
      cases horder : (Ord.compare (-23) e).then (Ord.compare 8388608 m) with
      | lt => exact .inl (congrArg some horder)
      | eq =>
        obtain ⟨he, hm⟩ := Ordering.then_eq_eq.1 horder
        obtain rfl := Std.LawfulEqCmp.compare_eq_iff_eq.1 he
        obtain rfl := Std.LawfulEqCmp.compare_eq_iff_eq.1 hm
        exact .inr rfl
      | gt =>
        rw [horder] at hle
        exact absurd hle (by decide)

end Scalar

namespace Color

/-- **A full opacity** is written as the greatest byte. -/
theorem alphaByte_of_isOpaque {c : Color} (h : c.isOpaque = true) : c.alphaByte = 255 := by
  obtain ⟨hzero, hone⟩ := Scalar.of_one_le (of_decide_eq_true h)
  have hfull : Scalar.clamp 0 1 c.alpha * 255 = 1 * 255 := by
    rw [Scalar.clamp, if_neg hzero]
    split
    · rfl
    · rename_i hnot
      exact Scalar.mul_eq_mul (hone.resolve_left hnot) _
  rw [alphaByte, hfull]
  decide +kernel

theorem alphaByte_rgb (r g b : UInt8) : (rgb r g b).alphaByte = 255 := by
  show (rgb 0 0 0).alphaByte = 255
  decide +kernel

/-- **An opacity that is read from a byte** is written as this byte. -/
theorem alphaByte_rgba (r g b x : UInt8) : (rgba r g b (Scalar.ofByte x / 255)).alphaByte = x := by
  have hall : ∀ n : Fin 256,
      (rgba 0 0 0 (Scalar.ofByte (UInt8.ofNat n.val) / 255)).alphaByte = UInt8.ofNat n.val := by
    decide +kernel
  have hx := hall ⟨x.toNat, x.toNat_lt⟩
  rwa [UInt8.ofNat_toNat] at hx

/-! ### Bytes -/

/-- The channels of a color and its opacity, as bytes. -/
def bytes (c : Color) : List UInt8 := [c.red, c.green, c.blue, c.alphaByte]

/-- The bytes of a color in the order of its text. -/
def writtenBytes (c : Color) : List UInt8 :=
  if c.isOpaque then [c.red, c.green, c.blue] else [c.alphaByte, c.red, c.green, c.blue]

theorem toList_hex (c : Color) : c.hex.toList = '#' :: c.writtenBytes.flatMap byteHex := by
  rw [hex, writtenBytes]
  split
  · simp [rgbHex]
  · simp

/-- **What is read from a color's text**, by its bytes. -/
theorem exists_ofBytes_writtenBytes (c : Color) : ∃ d, OfBytes c.writtenBytes d ∧
    d.bytes = if c.isOpaque then c.bytes else [c.alphaByte, c.red, c.green, c.blue] := by
  rw [writtenBytes]
  split
  · rename_i hfull
    refine ⟨_, .channels c.red c.green c.blue, ?_⟩
    rw [bytes, bytes, alphaByte_rgb, alphaByte_of_isOpaque hfull]
    rfl
  · refine ⟨_, .opacity c.alphaByte c.red c.green c.blue, ?_⟩
    rw [bytes, alphaByte_rgba]
    rfl

/-- **The digits of the bytes of a color with blanks around them** are read as the color. -/
theorem OfBytes.ofText {bs : List UInt8} {c : Color} (h : OfBytes bs c)
    {before w after : List Char} (hbefore : ∀ x ∈ before, Text.isBlank x = true)
    (hafter : ∀ x ∈ after, Text.isBlank x = true)
    (hw : w.map Char.toLower = ('#' :: bs.flatMap byteHex).map Char.toLower) :
    Color.ofText (String.ofList (before ++ w ++ after)) = .ok c := by
  obtain ⟨ds, rfl, hdigits, -, hread⟩ := h.exists_digits hw
  have hbare : Text.Bare Text.isBlank ('#' :: ds) := .of_forall <|
    List.forall_mem_cons.2 ⟨by decide, fun x hx ↦ isBlank_of_isHexDigit (hdigits x hx)⟩
  have htrim : Text.trim (String.ofList (before ++ '#' :: ds ++ after)) =
      String.ofList ('#' :: ds) := by
    rw [Text.trim, Text.trimChars, String.toList_ofList, Text.strip_eq hbefore hbare hafter]
  rw [Color.ofText, htrim]
  simp only [String.toList_ofList]
  exact hread _

/-- **The text of a color is read** whatever the color is, and blanks around it and its letter case
do not matter. An opaque color has its bytes again. Any other has the opacity in place of the first
channel and every channel in the next place, and so its own bytes only if all four are the same. -/
theorem ofText_hex (c : Color) :
    (∃ d, ofText c.hex = .ok d ∧
      d.bytes = (if c.isOpaque then c.bytes else [c.alphaByte, c.red, c.green, c.blue]) ∧
      (d.bytes = c.bytes ↔ c.isOpaque = true ∨ ∀ x ∈ c.bytes, x = c.alphaByte)) ∧
    ∀ before w after : List Char, (∀ x ∈ before, Text.isBlank x = true) →
      (∀ x ∈ after, Text.isBlank x = true) →
      w.map Char.toLower = c.hex.toList.map Char.toLower →
      ofText (String.ofList (before ++ w ++ after)) = ofText c.hex := by
  obtain ⟨d, hd, hbytes⟩ := c.exists_ofBytes_writtenBytes
  have hread : ∀ before w after : List Char, (∀ x ∈ before, Text.isBlank x = true) →
      (∀ x ∈ after, Text.isBlank x = true) →
      w.map Char.toLower = c.hex.toList.map Char.toLower →
      ofText (String.ofList (before ++ w ++ after)) = .ok d :=
    fun _ _ _ hbefore hafter hw ↦ hd.ofText hbefore hafter (c.toList_hex ▸ hw)
  have hself : ofText c.hex = .ok d := by
    have hplain := hread [] c.hex.toList [] (by simp) (by simp) rfl
    rwa [List.nil_append, List.append_nil, String.ofList_toList] at hplain
  refine ⟨⟨d, hself, hbytes, ?_⟩, fun before w after hbefore hafter hw ↦
    (hread before w after hbefore hafter hw).trans hself.symm⟩
  rw [hbytes]
  by_cases hfull : c.isOpaque = true
  · simp [hfull]
  · -- moved on by one place and the same: every byte is the one before it
    rw [if_neg hfull]
    simp only [bytes, List.cons.injEq, List.forall_mem_cons, hfull, Bool.false_eq_true, false_or]
    constructor
    · rintro ⟨hred, hgreen, hblue, -⟩
      exact ⟨hred.symm, (hred.trans hgreen).symm, (hred.trans (hgreen.trans hblue)).symm, trivial,
        by simp⟩
    · rintro ⟨hred, hgreen, hblue, -⟩
      exact ⟨hred.symm, hred.trans hgreen.symm, hgreen.trans hblue.symm, hblue, trivial⟩

/-- In small letters and with a blank on either side, it is still read as it is. -/
theorem ofText_hex_half :
    (∀ x ∈ [' '], Text.isBlank x = true) ∧ (∀ x ∈ ['\n'], Text.isBlank x = true) ∧
      "#80abcdef".toList.map Char.toLower =
        (⟨171, 205, 239, 0.5⟩ : Color).hex.toList.map Char.toLower ∧
      ofText (String.ofList ([' '] ++ "#80abcdef".toList ++ ['\n'])) =
        ofText (⟨171, 205, 239, 0.5⟩ : Color).hex ∧
      ∃ d, ofText (⟨171, 205, 239, 0.5⟩ : Color).hex = .ok d ∧ d.bytes = [128, 171, 205, 239] := by
  obtain ⟨⟨d, hd, hbytes, -⟩, hblanks⟩ := ofText_hex ⟨171, 205, 239, 0.5⟩
  have hfull : (⟨171, 205, 239, 0.5⟩ : Color).isOpaque = false := by decide +kernel
  have hbyte : (⟨171, 205, 239, 0.5⟩ : Color).alphaByte = 128 := by decide +kernel
  have hcase : "#80abcdef".toList.map Char.toLower =
      (⟨171, 205, 239, 0.5⟩ : Color).hex.toList.map Char.toLower := by decide +kernel
  rw [hfull, hbyte] at hbytes
  have hbefore : ∀ x ∈ [' '], Text.isBlank x = true := by simp [Text.isBlank]
  have hafter : ∀ x ∈ ['\n'], Text.isBlank x = true := by simp [Text.isBlank]
  exact ⟨hbefore, hafter, hcase, hblanks [' '] _ ['\n'] hbefore hafter hcase, d, hd, hbytes⟩

/-- The text of a color with half its opacity, with the opacity byte for red, red for green, and so
on. -/
theorem ofText_hex_moved : ¬ ∀ c : Color, 0 ≤ c.alpha → c.alpha ≤ 1 →
    ∃ d, ofText c.hex = .ok d ∧ d.red = c.red ∧ d.green = c.green ∧ d.blue = c.blue ∧
      d.alphaByte = c.alphaByte := by
  intro hall
  obtain ⟨d, hd, hred, -⟩ := hall ⟨16, 32, 48, 0.5⟩ (by decide +kernel) (by decide +kernel)
  have hread : (ofText (⟨16, 32, 48, 0.5⟩ : Color).hex).toOption.map Color.red = some 128 := by
    decide +kernel
  rw [hd] at hread
  exact absurd (hred.symm.trans (Option.some.inj hread)) (by decide)

end Color

end ViewCompiler
