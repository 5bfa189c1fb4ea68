import ViewCompiler.Proofs.Style.Sanitizing

/-!
# What is read of a sanitized style

The accessors of a style are written apart from the checks of its properties, each with a reading of
its own and an initial value to fall back on. `Style.Legible` says that none of them falls back on a
value that is there: what is stored is read, and the answer is made of what has been read. A style
that has been sanitized is legible (`Style.legible_sanitize`), with one exception that is part of
the statement: a number of columns is checked as a number with a sign and read as one without, so
that `-3` passes the check and counts as `1`.
-/

namespace ViewCompiler

/-! ### Whole numbers -/

namespace Text

/-- A number is read without regard to its bound. -/
theorem exists_natBelow?_eq (s : String) :
    ∃ n? : Option Nat, ∀ bound, natBelow? bound s = n?.filter fun n ↦ decide (n < bound) := by
  obtain ⟨ds, hds⟩ : ∃ ds : List Char, ∀ bound, natBelow? bound s =
      if ds.isEmpty ∨ !ds.all Char.isDigit then none
      else
        let n := ds.foldl (fun n c ↦ 10 * n + (c.toNat - '0'.toNat)) 0
        if n < bound then some n else none := ⟨_, fun _ ↦ rfl⟩
  by_cases hdigits : ds.isEmpty ∨ !ds.all Char.isDigit
  · exact ⟨none, fun bound ↦ by rw [hds, if_pos hdigits]; rfl⟩
  · refine ⟨some (ds.foldl (fun n c ↦ 10 * n + (c.toNat - '0'.toNat)) 0), fun bound ↦ ?_⟩
    rw [hds, if_neg hdigits]
    simp only [Option.filter_some, decide_eq_true_eq]

theorem natBelow?_mono {bound bound' : Nat} (h : bound ≤ bound') {s : String} {n : Nat}
    (hn : natBelow? bound s = some n) : natBelow? bound' s = some n := by
  obtain ⟨n?, hn?⟩ := exists_natBelow?_eq s
  rw [hn?, Option.filter_eq_some_iff, decide_eq_true_eq] at hn ⊢
  exact ⟨hn.1, Nat.lt_of_lt_of_le hn.2 h⟩

/-- A number below zero is no number without a sign. -/
theorem natBelow?_of_minus {bound : Nat} {s : String} {r : List Char} (h : s.toList = '-' :: r) :
    natBelow? bound s = none := by
  unfold natBelow?
  rw [h]
  exact if_pos (.inr (by simp))

/-- A number with a sign is one without, unless the sign is a minus. -/
theorem natBelow?_of_intWithin? {bound : Nat} {s : String} {i : Int}
    (h : intWithin? bound s = some i) :
    natBelow? bound s = some i.toNat ∨ s.toList.head? = some '-' := by
  unfold intWithin? at h
  split at h
  · rename_i hminus
    exact .inr (by rw [hminus]; rfl)
  · cases hn : natBelow? bound s with
    | none => exact absurd (hn ▸ h) (by simp)
    | some n =>
      rw [hn] at h
      obtain rfl : (n : Int) = i := Option.some.inj h
      exact .inl rfl

end Text

namespace Style

variable {α ε : Type} {s : Style} {property value : String}

/-! ### One property -/

/-- If a property is there, then `read` finds something in its value that satisfies `gives`. -/
def Reads (s : Style) (property : String) (read : String → Option α) (gives : α → Prop) : Prop :=
  ∀ value, s.get? property = some value → ∃ a, read value = some a ∧ gives a

/-- A value that has passed its check. -/
theorem Faultless.check (h : s.Faultless) {check : String → Bool}
    (hknown : (property, check) ∈ known) (hvalue : s.get? property = some value) :
    check value = true := by
  refine Bool.eq_false_imp_eq_true.1 fun hfails ↦ ?_
  exact absurd ⟨hvalue, check, hknown, hfails⟩ (h property value)

theorem exists_ok_of_accepts {e : Except ε α} (h : accepts e = true) :
    ∃ a, e.toOption = some a := by
  cases e with
  | ok a => exact ⟨a, rfl⟩
  | error _ => exact absurd h (by simp [accepts])

/-- **A property that is checked by reading it.** -/
theorem Faultless.reads (h : s.Faultless) {read : String → Except ε α}
    (hknown : (property, fun v ↦ accepts (read v)) ∈ known) :
    s.Reads property (fun v ↦ (read v).toOption) fun a ↦ s.read? property read = some a :=
  fun value hvalue ↦ by
    obtain ⟨a, ha⟩ := exists_ok_of_accepts (h.check hknown hvalue)
    exact ⟨a, ha, by rw [read?, hvalue]; exact ha⟩

/-- A property that is checked by reading all of it. -/
theorem Faultless.reads_whole (h : s.Faultless) {p : Reader α}
    (hknown : (property, isWhole p) ∈ known) :
    s.Reads property (fun v ↦ p.whole v.toList) fun a ↦ s.whole? property p = some a :=
  fun value hvalue ↦ by
    obtain ⟨a, ha⟩ := Option.isSome_iff_exists.1 (h.check hknown hvalue)
    exact ⟨a, ha, by rw [whole?, hvalue]; exact ha⟩

theorem Reads.mono {read : String → Option α} {gives gives' : α → Prop}
    (h : s.Reads property read gives) (himp : ∀ a, gives a → gives' a) :
    s.Reads property read gives' :=
  fun value hvalue ↦ (h value hvalue).imp fun _ ha ↦ ⟨ha.1, himp _ ha.2⟩

/-- A property that is named by words. -/
theorem Faultless.reads_keyword [Keyword α] (h : s.Faultless)
    (hknown : (property, isKeyword α) ∈ known) :
    s.Reads property (fun v ↦ (Keyword.ofText v).toOption) (s.keyword property = · : α → Prop) :=
  (h.reads hknown).mono fun a ha ↦ by rw [keyword, ha, Option.getD_some]

theorem Faultless.reads_dimension (h : s.Faultless)
    (hknown : (property, isWhole Reader.dimension) ∈ known) :
    s.Reads property (fun v ↦ Reader.dimension.whole v.toList) (s.dimension property = ·) :=
  (h.reads_whole hknown).mono fun d hd ↦ by rw [dimension, hd, Option.getD_some]

/-- A color is given unless it cannot be seen. -/
theorem Faultless.reads_visibleColor (h : s.Faultless)
    (hknown : (property, fun v ↦ accepts (Color.ofText v)) ∈ known) :
    s.Reads property (fun v ↦ (Color.ofText v).toOption)
      fun c ↦ s.visibleColor property = if c.isTransparent then none else some c :=
  (h.reads hknown).mono fun c hc ↦ by
    rw [visibleColor, hc]
    cases hseen : c.isTransparent <;> simp [hseen]

/-! ### All properties -/

/-- **Every value that is there is read**, and the accessor of its property answers what has been
read. -/
structure Legible (s : Style) : Prop where
  display : s.Reads "display" (fun v ↦ (Keyword.ofText v).toOption) (s.display = ·)
  position : s.Reads "position" (fun v ↦ (Keyword.ofText v).toOption) (s.position = ·)
  float : s.Reads "float" (fun v ↦ (Keyword.ofText v).toOption) (s.float = ·)
  clear : s.Reads "clear" (fun v ↦ (Keyword.ofText v).toOption) (s.clear = ·)
  verticalAlign : s.Reads "vertical-align" (fun v ↦ Reader.verticalAlign.whole v.toList)
    (s.verticalAlign = ·)
  textAlign : s.Reads "text-align" (fun v ↦ (Keyword.ofText v).toOption) (s.textAlign = ·)
  direction : s.Reads "direction" (fun v ↦ (Keyword.ofText v).toOption) (s.direction = ·)
  visibility : s.Reads "visibility" (fun v ↦ (Keyword.ofText v).toOption) (s.visibility = ·)
  flexDirection : s.Reads "flex-direction" (fun v ↦ (Keyword.ofText v).toOption)
    (s.flexDirection = ·)
  fontWeight : s.Reads "font-weight" (fun v ↦ (FontWeight.ofText v).toOption) (s.fontWeight = ·)
  fontStyle : s.Reads "font-style" (fun v ↦ (FontStyle.ofText v).toOption) (s.fontStyle = ·)
  fontSize : s.Reads "font-size" (fun v ↦ Reader.length.whole v.toList) (s.fontSize = some ·)
  /-- The word `normal` is read as no length, and makes the height follow the size of the font. -/
  lineHeight : s.Reads "line-height" (fun v ↦ (readNormalOrLength "line-height" v).toOption)
    fun height ↦ s.lineHeight = height.getD (s.fontSize.getD 16 * 1.2)
  color : s.Reads "color" (fun v ↦ (Color.ofText v).toOption) (s.color = some ·)
  backgroundColor : s.Reads "background-color" (fun v ↦ (Color.ofText v).toOption)
    fun c ↦ s.backgroundColor = if c.isTransparent then none else some c
  borderColor : s.Reads "border-color" (fun v ↦ (Color.ofText v).toOption)
    fun c ↦ s.borderColor = if c.isTransparent then none else some c
  borderRadius : s.Reads "border-radius" (fun v ↦ Reader.length.whole v.toList)
    (s.borderRadius = ·)
  width : s.Reads "width" (fun v ↦ Reader.dimension.whole v.toList) (s.width = ·)
  height : s.Reads "height" (fun v ↦ Reader.dimension.whole v.toList) (s.height = ·)
  top : s.Reads "top" (fun v ↦ Reader.dimension.whole v.toList) (s.top = ·)
  zIndex : ∀ value, s.get? "z-index" = some value →
    value = "auto" ∧ s.zIndex = 0 ∨ Text.intWithin? (twoPow 31) value = some s.zIndex
  /-- A number with a minus sign, also `-0`, is not read: it counts as `1`. -/
  columnCount : ∀ value, s.get? "column-count" = some value →
    value = "auto" ∧ s.columnCount = 1 ∨ Text.natBelow? (twoPow 32) value = some s.columnCount ∨
      (∃ i, Text.intWithin? (twoPow 31) value = some i) ∧ value.toList.head? = some '-' ∧
        s.columnCount = 1
  opacity : s.Reads "opacity" (fun v ↦ (Scalar.ofText v).toOption)
    (s.opacity = Scalar.clamp 0 1 ·)

/-- A style with no blanks around its values. -/
def Trimmed (s : Style) : Prop :=
  ∀ property value, s.get? property = some value → Text.trim value = value

theorem trimmed_ofMap (m : SortedMap String String) : (ofMap m).Trimmed :=
  fun _ _ ↦ trim_of_get?_ofMap

theorem Trimmed.sanitize (h : s.Trimmed) : s.sanitize.1.Trimmed :=
  fun property value hvalue ↦ h property value (get?_of_sanitize hvalue)

/-- A whole number or the word `auto`, in a value without blanks around it. -/
theorem Faultless.integerOrAuto (h : s.Faultless) (htrim : s.Trimmed)
    (hknown : (property, isIntegerOrAuto) ∈ known) (hvalue : s.get? property = some value) :
    value = "auto" ∨ ∃ i, Text.intWithin? (twoPow 31) value = some i := by
  have hcheck := h.check hknown hvalue
  rw [isIntegerOrAuto, htrim property value hvalue, Bool.or_eq_true, beq_iff_eq] at hcheck
  exact hcheck.imp_right Option.isSome_iff_exists.1

theorem Faultless.zIndex (h : s.Faultless) (htrim : s.Trimmed)
    (hvalue : s.get? "z-index" = some value) :
    value = "auto" ∧ s.zIndex = 0 ∨ Text.intWithin? (twoPow 31) value = some s.zIndex := by
  rw [Style.zIndex, hvalue, Option.bind_some]
  rcases h.integerOrAuto htrim (by simp [known]) hvalue with rfl | ⟨i, hi⟩
  · exact .inl ⟨rfl, by decide⟩
  · exact .inr (by rw [hi, Option.getD_some])

theorem Faultless.columnCount (h : s.Faultless) (htrim : s.Trimmed)
    (hvalue : s.get? "column-count" = some value) :
    value = "auto" ∧ s.columnCount = 1 ∨ Text.natBelow? (twoPow 32) value = some s.columnCount ∨
      (∃ i, Text.intWithin? (twoPow 31) value = some i) ∧ value.toList.head? = some '-' ∧
        s.columnCount = 1 := by
  rw [Style.columnCount, hvalue, Option.bind_some]
  rcases h.integerOrAuto htrim (by simp [known]) hvalue with rfl | ⟨i, hi⟩
  · exact .inl ⟨rfl, by decide⟩
  · -- the check is that of a signed number, the accessor reads an unsigned one
    rcases Text.natBelow?_of_intWithin? hi with hn | hminus
    · have hbounds : twoPow 31 ≤ twoPow 32 := by decide
      exact .inr (.inl (by rw [Text.natBelow?_mono hbounds hn, Option.getD_some]))
    · obtain ⟨r, hr⟩ := List.head?_eq_some_iff.1 hminus
      exact .inr (.inr ⟨⟨i, hi⟩, hminus, by rw [Text.natBelow?_of_minus hr, Option.getD_none]⟩)

theorem Faultless.opacity (h : s.Faultless) (htrim : s.Trimmed) : s.Reads "opacity"
    (fun v ↦ (Scalar.ofText v).toOption) (s.opacity = Scalar.clamp 0 1 ·) := fun value hvalue ↦ by
  have hknown : ("opacity", fun v ↦ accepts (Scalar.ofText (Text.trim v))) ∈ known := by
    simp [known]
  have hcheck := h.check hknown hvalue
  rw [htrim _ value hvalue] at hcheck
  obtain ⟨x, hx⟩ := exists_ok_of_accepts hcheck
  exact ⟨x, hx, by rw [Style.opacity, read?, hvalue, Option.bind_some, hx]; rfl⟩

theorem Faultless.legible (h : s.Faultless) (htrim : s.Trimmed) : s.Legible where
  display := h.reads_keyword (by simp [known])
  position := h.reads_keyword (by simp [known])
  float := h.reads_keyword (by simp [known])
  clear := h.reads_keyword (by simp [known])
  verticalAlign := (h.reads_whole (by simp [known])).mono fun a ha ↦ by
    rw [Style.verticalAlign, ha, Option.getD_some]
  textAlign := h.reads_keyword (by simp [known])
  direction := h.reads_keyword (by simp [known])
  visibility := h.reads_keyword (by simp [known])
  flexDirection := h.reads_keyword (by simp [known])
  fontWeight := (h.reads (by simp [known])).mono fun a ha ↦ by
    rw [Style.fontWeight, ha, Option.getD_some]
  fontStyle := (h.reads (by simp [known])).mono fun a ha ↦ by
    rw [Style.fontStyle, ha, Option.getD_some]
  fontSize := h.reads_whole (by simp [known])
  lineHeight := (h.reads (by simp [known])).mono fun a ha ↦ by
    rw [Style.lineHeight, ha, Option.getD_some]
  color := h.reads (by simp [known])
  backgroundColor := h.reads_visibleColor (by simp [known])
  borderColor := h.reads_visibleColor (by simp [known])
  borderRadius := (h.reads_whole (by simp [known])).mono fun a ha ↦ by
    rw [Style.borderRadius, ha, Option.getD_some]
  width := h.reads_dimension (by simp [known])
  height := h.reads_dimension (by simp [known])
  top := h.reads_dimension (by simp [known])
  zIndex _ := h.zIndex htrim
  columnCount _ := h.columnCount htrim
  opacity := h.opacity htrim

/-- **A sanitized style is legible**, and there is nothing left to be sanitized. -/
theorem legible_sanitize (m : SortedMap String String) :
    (ofMap m).sanitize.1.Legible ∧
      (ofMap m).sanitize.1.sanitize = ((ofMap m).sanitize.1, []) :=
  have hfaultless := faultless_sanitize (ofMap m)
  ⟨hfaultless.legible (trimmed_ofMap m).sanitize, sanitize_of_faultless hfaultless⟩

/-- The exception: a number of columns below zero stays in the style. -/
example :
    (ofMap (.ofList [("column-count", "-3")])).sanitize.1.get? "column-count" = some "-3" := by
  decide +kernel

end Style

end ViewCompiler
