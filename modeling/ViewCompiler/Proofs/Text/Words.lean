import Mathlib.Data.List.Basic
import ViewCompiler.Text.Slug

/-!
# Words of a text

`Text.runs` takes a text apart at some characters. Its runs are not empty and have none of these
characters in them (`Text.isRun_of_mem`). What words are joined to has the characters of the words
and those between them (`Text.mem_intercalate`). `Text.pieces` takes a text apart at every such
character (`Text.pieces_append_cons`).

`Text.IsSlug` says of a text that it is words of lower-case letters and digits with single dashes
between them, as every slug is.
-/

namespace ViewCompiler

namespace Text

/-- Some characters of a text, none of which ends a run. -/
structure IsRun (p : Char → Bool) (cs w : List Char) : Prop where
  ne_nil : w ≠ []
  mem : ∀ c ∈ w, c ∈ cs
  inside : ∀ c ∈ w, p c = false

namespace IsRun

variable {p : Char → Bool} {c : Char} {cs w : List Char}

theorem single (hc : ¬p c = true) : IsRun p (c :: cs) [c] where
  ne_nil := List.cons_ne_nil _ _
  mem _ hd := List.mem_singleton.1 hd ▸ .head _
  inside _ hd := List.mem_singleton.1 hd ▸ eq_false_of_ne_true hc

theorem tail (h : IsRun p cs w) : IsRun p (c :: cs) w where
  ne_nil := h.ne_nil
  mem d hd := .tail _ (h.mem d hd)
  inside := h.inside

theorem cons (h : IsRun p cs w) (hc : ¬p c = true) : IsRun p (c :: cs) (c :: w) where
  ne_nil := List.cons_ne_nil _ _
  mem := List.forall_mem_cons.2 ⟨.head _, h.tail.mem⟩
  inside := List.forall_mem_cons.2 ⟨eq_false_of_ne_true hc, h.inside⟩

end IsRun

/-- **A run has characters, none of which ends it.** -/
theorem isRun_of_mem {p : Char → Bool} {cs w : List Char} (h : w ∈ runs p cs) : IsRun p cs w := by
  fun_induction runs p cs generalizing w with
  | case1 => exact absurd h List.not_mem_nil
  | case2 c cs hc ih => exact (ih h).tail
  | case3 c hc => exact List.mem_singleton.1 h ▸ .single hc
  | case4 c hc d r hd ih =>
    rcases List.mem_cons.1 h with rfl | h
    · exact .single hc
    · exact (ih h).tail
  | case5 c hc d r hd hnil ih =>
    rw [hnil] at h
    exact List.mem_singleton.1 h ▸ .single hc
  | case6 c hc d r hd v ws hruns ih =>
    rw [hruns] at h ih
    rcases List.mem_cons.1 h with rfl | h
    · exact (ih (.head _)).cons hc
    · exact (ih (.tail _ h)).tail

/-- Words with the same characters between each two of them. -/
theorem toList_join (between : String) (ws : List (List Char)) :
    (between.intercalate (ws.map String.ofList)).toList = between.toList.intercalate ws := by
  rw [String.toList_intercalate, List.map_map]
  congr 1
  exact List.map_id'' (fun w ↦ String.toList_ofList) ws

theorem mem_intercalate {between : List Char} {ws : List (List Char)} {c : Char}
    (h : c ∈ between.intercalate ws) : c ∈ between ∨ ∃ w ∈ ws, c ∈ w := by
  induction ws with
  | nil => exact absurd h List.not_mem_nil
  | cons w ws ih =>
    cases ws with
    | nil =>
      rw [List.intercalate_singleton] at h
      exact .inr ⟨w, .head _, h⟩
    | cons v ws =>
      rw [List.intercalate_cons_cons, List.append_assoc, List.mem_append, List.mem_append] at h
      rcases h with h | h | h
      · exact .inr ⟨w, .head _, h⟩
      · exact .inl h
      · exact (ih h).imp_right fun ⟨u, hu, hc⟩ ↦ ⟨u, .tail _ hu, hc⟩

theorem map_intercalate (f : Char → Char) (between : List Char) (ws : List (List Char)) :
    (between.intercalate ws).map f = (between.map f).intercalate (ws.map (List.map f)) := by
  induction ws with
  | nil => rfl
  | cons w ws ih =>
    cases ws with
    | nil => simp
    | cons v ws =>
      rw [List.intercalate_cons_cons, List.map_append, List.map_append, ih, List.map_cons,
        List.map_cons, List.map_cons, List.intercalate_cons_cons]

/-! ### Pieces -/

theorem pieces_ne_nil (p : Char → Bool) (cs : List Char) : pieces p cs ≠ [] := by
  cases cs with
  | nil => exact List.cons_ne_nil _ _
  | cons c cs =>
    rw [pieces]
    split
    · exact List.cons_ne_nil _ _
    · split <;> exact List.cons_ne_nil _ _

/-- **A character between pieces parts the pieces.** -/
theorem pieces_append_cons {p : Char → Bool} {c : Char} (hc : p c = true) (cs ds : List Char) :
    pieces p (cs ++ c :: ds) = pieces p cs ++ pieces p ds := by
  induction cs with
  | nil =>
    show pieces p (c :: ds) = [] :: pieces p ds
    rw [pieces, if_pos hc]
  | cons b cs ih =>
    rw [List.cons_append, pieces, pieces, ih]
    split
    · rfl
    · obtain ⟨w, ws, hws⟩ := List.exists_cons_of_ne_nil (pieces_ne_nil p cs)
      rw [hws]
      rfl

/-- A text without such a character is one piece. -/
theorem pieces_of_forall {p : Char → Bool} {cs : List Char} (h : ∀ c ∈ cs, p c = false) :
    pieces p cs = [cs] := by
  induction cs with
  | nil => rfl
  | cons c cs ih =>
    obtain ⟨hc, hcs⟩ := List.forall_mem_cons.1 h
    rw [pieces, if_neg (by rw [hc]; decide), ih hcs]

/-! ### Slugs -/

/-- Words of lower-case letters and digits, joined by single dashes. -/
def IsSlug (s : String) : Prop :=
  ∃ ws : List (List Char), (∀ w ∈ ws, w ≠ [] ∧ ∀ c ∈ w, isSlugChar c = true) ∧
    s.toList = ['-'].intercalate ws

theorem isSlug_asciiSlug (s : String) : IsSlug (asciiSlug s) := by
  refine ⟨runs (fun c ↦ !isSlugChar c) (s.toList.map Char.toLower), fun w hw ↦ ?_,
    toList_join "-" _⟩
  have hrun := isRun_of_mem hw
  exact ⟨hrun.ne_nil, fun c hc ↦ by simpa using hrun.inside c hc⟩

/-- **A slug with underscores** has the same words. -/
theorem underscored_of_words {s : String} {ws : List (List Char)}
    (hws : ∀ w ∈ ws, ∀ c ∈ w, isSlugChar c = true) (hs : s.toList = ['-'].intercalate ws) :
    underscored s = String.ofList (['_'].intercalate ws) := by
  have hkept : ∀ w ∈ ws, w.map (fun c ↦ if c = '-' then '_' else c) = w := fun w hw ↦ by
    refine (List.map_congr_left fun c hc ↦ if_neg fun hdash ↦ ?_).trans (List.map_id' w)
    exact absurd (hws w hw c hc) (by rw [hdash]; decide)
  rw [underscored, hs, map_intercalate, List.map_congr_left hkept, List.map_id']
  rfl

/-- A slug has no other characters than those of its words and dashes. -/
theorem IsSlug.mem {s : String} (h : IsSlug s) {c : Char} (hc : c ∈ s.toList) :
    isSlugChar c = true ∨ c = '-' := by
  obtain ⟨ws, hws, hs⟩ := h
  rw [hs] at hc
  rcases mem_intercalate hc with hc | ⟨w, hw, hc⟩
  · exact .inr (List.mem_singleton.1 hc)
  · exact .inl ((hws w hw).2 c hc)

end Text

end ViewCompiler
