import Mathlib.Data.List.TakeWhile
import ViewCompiler.Text.Blank

/-!
# Texts with nothing to take off

A text is bare of some characters if it neither starts nor ends with one (`Text.Bare`). Taking such
characters off both ends leaves a bare text, and it is the only bare text that becomes the whole one
by such characters around it (`Text.strip_eq`). So it can be told from any way to take a text apart
into something bare and what is around it, and taking off twice is taking off once.
-/

namespace ViewCompiler

namespace Text

variable {p : Char → Bool}

/-- A text that neither starts nor ends with a character that satisfies `p`. -/
structure Bare (p : Char → Bool) (cs : List Char) : Prop where
  head : ∀ c ∈ cs.head?, p c = false
  last : ∀ c ∈ cs.getLast?, p c = false

theorem Bare.of_forall {cs : List Char} (h : ∀ c ∈ cs, p c = false) : Bare p cs where
  head c hc := h c (List.mem_of_mem_head? hc)
  last c hc := h c (List.mem_of_mem_getLast? hc)

/-! ### The front -/

theorem dropWhile_eq_self {cs : List Char} (h : ∀ c ∈ cs.head?, p c = false) :
    cs.dropWhile p = cs := by
  cases cs with
  | nil => rfl
  | cons c r => rw [List.dropWhile_cons_of_neg (by simp [h c rfl])]

theorem head_append {cs : List Char} (hne : cs ≠ []) (h : ∀ c ∈ cs.head?, p c = false)
    (rest : List Char) : ∀ c ∈ (cs ++ rest).head?, p c = false := by
  obtain ⟨c, r, rfl⟩ := List.exists_cons_of_ne_nil hne
  exact h

theorem dropWhile_append_left {before : List Char} (hbefore : ∀ c ∈ before, p c = true)
    {cs : List Char} (h : ∀ c ∈ cs.head?, p c = false) : (before ++ cs).dropWhile p = cs := by
  rw [List.dropWhile_append_of_pos hbefore, dropWhile_eq_self h]

theorem takeWhile_append_left {before : List Char} (hbefore : ∀ c ∈ before, p c = true)
    {cs : List Char} (h : ∀ c ∈ cs.head?, p c = false) : (before ++ cs).takeWhile p = before := by
  have hcs : cs.takeWhile p = [] := by
    cases cs with
    | nil => rfl
    | cons c r => rw [List.takeWhile_cons_of_neg (by simp [h c rfl])]
  rw [List.takeWhile_append_of_pos hbefore, hcs, List.append_nil]

theorem head?_dropWhile (p : Char → Bool) (cs : List Char) :
    ∀ c ∈ (cs.dropWhile p).head?, p c = false := by
  induction cs with
  | nil => exact fun c hc ↦ absurd hc (by simp)
  | cons d r ih =>
    by_cases hd : p d = true
    · rw [List.dropWhile_cons_of_pos hd]
      exact ih
    · rw [List.dropWhile_cons_of_neg hd]
      intro c hc
      obtain rfl : d = c := by simpa using hc
      exact Bool.eq_false_iff.2 hd

/-! ### The back -/

/-- What is taken off the back satisfies `p`. -/
theorem exists_dropEnd_append (p : Char → Bool) (cs : List Char) :
    ∃ after, cs = dropEnd p cs ++ after ∧ ∀ c ∈ after, p c = true := by
  refine ⟨(cs.reverse.takeWhile p).reverse, ?_, fun c hc ↦ ?_⟩
  · rw [dropEnd, ← List.reverse_append, List.takeWhile_append_dropWhile, List.reverse_reverse]
  · exact List.mem_takeWhile_imp (List.mem_reverse.1 hc)

theorem dropEnd_append_right {cs after : List Char} (h : ∀ c ∈ cs.getLast?, p c = false)
    (hafter : ∀ c ∈ after, p c = true) : dropEnd p (cs ++ after) = cs := by
  rw [dropEnd, List.reverse_append, dropWhile_append_left, List.reverse_reverse]
  · exact fun c hc ↦ hafter c (List.mem_reverse.1 hc)
  · exact fun c hc ↦ h c (List.head?_reverse ▸ hc)

/-! ### Both ends -/

/-- **The only bare text** inside characters that satisfy `p`. -/
theorem strip_eq {before cs after : List Char} (hbefore : ∀ c ∈ before, p c = true)
    (h : Bare p cs) (hafter : ∀ c ∈ after, p c = true) : strip p (before ++ cs ++ after) = cs := by
  rw [strip, dropStart, List.append_assoc, List.dropWhile_append_of_pos hbefore]
  cases cs with
  | nil =>
    have hnone : after.dropWhile p = [] := List.dropWhile_eq_nil_iff.2 hafter
    rw [List.nil_append, hnone]
    rfl
  | cons c r =>
    rw [dropWhile_eq_self fun d hd ↦ h.head d (by simpa using hd),
      dropEnd_append_right h.last hafter]

/-- **What is left is bare**, and what has been taken off satisfies `p`. -/
theorem exists_strip (p : Char → Bool) (cs : List Char) :
    Bare p (strip p cs) ∧ ∃ after, cs.dropWhile p = strip p cs ++ after ∧
      ∀ c ∈ after, p c = true := by
  obtain ⟨after, hsplit, hafter⟩ := exists_dropEnd_append p (cs.dropWhile p)
  refine ⟨⟨fun c hc ↦ ?_, fun c hc ↦ ?_⟩, after, hsplit, hafter⟩
  · have hhead : (dropEnd p (cs.dropWhile p)).head? = some c := hc
    refine head?_dropWhile p cs c ?_
    rw [hsplit, List.head?_append, hhead]
    rfl
  · refine head?_dropWhile p (cs.dropWhile p).reverse c ?_
    rw [strip, dropEnd, List.getLast?_reverse] at hc
    exact hc

theorem bare_strip (p : Char → Bool) (cs : List Char) : Bare p (strip p cs) := (exists_strip p cs).1

theorem strip_of_bare {cs : List Char} (h : Bare p cs) : strip p cs = cs := by
  have hnone : ∀ c ∈ ([] : List Char), p c = true := by simp
  have hcs := strip_eq hnone h hnone
  rwa [List.nil_append, List.append_nil] at hcs

theorem trim_of_bare {cs : List Char} (h : Bare isBlank cs) :
    trim (String.ofList cs) = String.ofList cs := by
  rw [trim, trimChars, String.toList_ofList, strip_of_bare h]

/-- Blanks are taken off once. -/
theorem trim_trim (s : String) : trim (trim s) = trim s :=
  trim_of_bare (bare_strip isBlank s.toList)

/-! ### Parts that are known -/

theorem dropLeading?_append (p cs : List Char) : dropLeading? p (p ++ cs) = some cs := by
  induction p with
  | nil => rfl
  | cons c p ih => rw [List.cons_append, dropLeading?, if_pos rfl, ih]

theorem dropTrailing?_append (p cs : List Char) : dropTrailing? p (cs ++ p) = some cs := by
  rw [dropTrailing?, List.reverse_append, dropLeading?_append, Option.map_some,
    List.reverse_reverse]

end Text

end ViewCompiler
