import ViewCompiler.Proofs.Text.Words
import ViewCompiler.Scalar.Decimal

/-!
# Characters of a text

`Text.Within q` says of a text that all its characters satisfy `q`. Joining texts keeps it so, and
so does taking characters away. Between collapsed words there are single spaces, which need not have
been in the text (`Text.Within.collapse`).

The texts of numbers have letters, digits, signs and points only (`Scalar.isNumeral`).
-/

namespace ViewCompiler

namespace Text

/-- All characters of a text satisfy `q`. -/
def Within (q : Char → Prop) (s : String) : Prop := ∀ c ∈ s.toList, q c

instance (q : Char → Prop) [DecidablePred q] (s : String) : Decidable (Within q s) :=
  List.decidableBAll q s.toList

variable {q q' : Char → Prop} {s t : String}

theorem Within.mono (h : Within q s) (hq : ∀ c, q c → q' c) : Within q' s :=
  fun c hc ↦ hq c (h c hc)

theorem within_append : Within q (s ++ t) ↔ Within q s ∧ Within q t := by
  simp only [Within, String.toList_append, List.forall_mem_append]

theorem within_ofList {cs : List Char} : Within q (String.ofList cs) ↔ ∀ c ∈ cs, q c := by
  rw [Within, String.toList_ofList]

theorem within_join {l : List String} : Within q (String.join l) ↔ ∀ s ∈ l, Within q s := by
  simp only [Within, String.toList_join, List.mem_flatMap]
  exact ⟨fun h s hs c hc ↦ h c ⟨s, hs, hc⟩, fun h c ⟨s, hs, hc⟩ ↦ h s hs c hc⟩

/-- Words with a text between each two of them. -/
theorem within_intercalate {between : String} {ws : List (List Char)} (hbetween : Within q between)
    (hws : ∀ w ∈ ws, ∀ c ∈ w, q c) :
    Within q (between.intercalate (ws.map String.ofList)) := fun c hc ↦ by
  rw [toList_join] at hc
  rcases mem_intercalate hc with hc | ⟨w, hw, hc⟩
  · exact hbetween c hc
  · exact hws w hw c hc

/-! ### Blanks -/

theorem mem_of_mem_strip {p : Char → Bool} {cs : List Char} {c : Char} (h : c ∈ strip p cs) :
    c ∈ cs := by
  rw [strip, dropEnd, List.mem_reverse] at h
  exact (List.dropWhile_sublist p).subset (List.mem_reverse.1 ((List.dropWhile_sublist p).subset h))

theorem Within.trim (h : Within q s) : Within q (trim s) :=
  within_ofList.2 fun c hc ↦ h c (mem_of_mem_strip hc)

/-- **A collapsed text** has no other characters than the text, and spaces. -/
theorem Within.collapse (h : Within q s) (hspace : q ' ') : Within q (collapse s) :=
  within_intercalate (fun _ hc ↦ List.mem_singleton.1 hc ▸ hspace)
    fun _ hw c hc ↦ h c ((isRun_of_mem hw).mem c hc)

end Text

/-! ### Numbers -/

namespace Scalar

/-- The characters in the texts of numbers: digits, a sign, a point, and the letters of what is
infinite or no number. -/
def isNumeral (c : Char) : Bool := c.isAlphanum || c == '-' || c == '.'

theorem isNumeral_of_isDigit {c : Char} (h : c.isDigit = true) : isNumeral c = true := by
  rw [isNumeral, Char.isAlphanum, h, Bool.or_true, Bool.true_or, Bool.true_or]

theorem numeral_of_mem_digitsOf {n : Nat} {c : Char} (h : c ∈ Decimal.digitsOf n) :
    isNumeral c = true :=
  isNumeral_of_isDigit (Nat.isDigit_of_mem_toDigits (by decide) (by decide) h)

theorem numeral_of_mem_toString_nat {n : Nat} {c : Char} (h : c ∈ (toString n).toList) :
    isNumeral c = true := by
  rw [Nat.toString_eq_ofList_toDigits, String.toList_ofList] at h
  exact numeral_of_mem_digitsOf h

theorem numeral_of_mem_toString_int {i : Int} {c : Char} (h : c ∈ (toString i).toList) :
    isNumeral c = true := by
  cases i with
  | ofNat n => exact numeral_of_mem_toString_nat h
  | negSucc n =>
    have hsign : (toString (Int.negSucc n)).toList = '-' :: (toString (n + 1)).toList := by
      show ("-" ++ (n + 1).repr).toList = _
      rw [String.toList_append]
      rfl
    rw [hsign] at h
    rcases List.mem_cons.1 h with rfl | h
    · decide
    · exact numeral_of_mem_toString_nat h

theorem numeral_of_mem_positional {digits : Nat} {exponent : Int} {c : Char}
    (h : c ∈ positional digits exponent) : isNumeral c = true := by
  have hzeros : ∀ n, c ∈ List.replicate n '0' → isNumeral c = true := fun n h ↦ by
    rw [List.eq_of_mem_replicate h]
    decide
  have hpadded : ∀ n, c ∈ List.replicate n '0' ++ Decimal.digitsOf digits → isNumeral c = true :=
    fun n h ↦ (List.mem_append.1 h).elim (hzeros n) numeral_of_mem_digitsOf
  rw [positional] at h
  dsimp only at h
  split at h
  · exact (List.mem_append.1 h).elim numeral_of_mem_digitsOf (hzeros _)
  · rcases List.mem_append.1 h with h | h
    · exact hpadded _ (List.mem_of_mem_take h)
    · rcases List.mem_cons.1 h with rfl | h
      · decide
      · exact hpadded _ (List.mem_of_mem_drop h)

theorem numeral_of_mem_twoPlaces {x : Scalar} {c : Char} (h : c ∈ twoPlaces x) :
    isNumeral c = true := by
  have hwords : ∀ word ∈ ["NaN", "inf", "-inf", "-"],
      Text.Within (fun c ↦ isNumeral c = true) word := by decide
  rw [twoPlaces] at h
  split at h
  · exact hwords "NaN" (by decide) c h
  · split at h
    · exact hwords "-inf" (by decide) c h
    · exact hwords "inf" (by decide) c h
  · rcases List.mem_append.1 h with h | h
    · split at h
      · exact hwords "-" (by decide) c h
      · exact absurd h List.not_mem_nil
    · exact numeral_of_mem_positional h

theorem mem_of_mem_dropTrailing {p : Char → Bool} {cs : List Char} {c : Char}
    (h : c ∈ dropTrailing p cs) : c ∈ cs :=
  List.mem_reverse.1 ((List.dropWhile_sublist p).subset (List.mem_reverse.1 h))

/-- **The text of a measure** is made of such characters. -/
theorem within_text (x : Scalar) : Text.Within (fun c ↦ isNumeral c = true) x.text := by
  rw [text]
  split
  · exact fun c ↦ numeral_of_mem_toString_int
  · refine Text.within_ofList.2 fun c hc ↦ ?_
    exact numeral_of_mem_twoPlaces (mem_of_mem_dropTrailing (mem_of_mem_dropTrailing hc))

end Scalar

end ViewCompiler
