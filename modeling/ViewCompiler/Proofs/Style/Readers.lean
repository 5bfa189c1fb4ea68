import Mathlib.Data.List.Forall2
import ViewCompiler.Proofs.Text.Stripping
import ViewCompiler.Style.Reader

/-!
# What readers take

A reader takes a value off the front of a text. For each way to combine readers there is a fact
about texts `w ++ rest`, where `w` is what the reader is to take: it takes all of `w` and leaves
`rest` alone. Where readers are tried in turn the ones in front have to fail, which for words is
seen from two letters that differ (`Reader.clashes`), whatever comes after them.

The readers in use stop before a break, that is a blank, a comma or a closing parenthesis
(`Reader.Breaks`), and a list of items is read to its end if each item is read up to a break
(`Reader.separated_commas`).
-/

namespace ViewCompiler

namespace Reader

variable {α β : Type} {p : Reader α} {q : Reader β}

/-! ### Combination of readers -/

theorem map_eq_some_iff {f : α → β} {cs r : List Char} {b : β} :
    p.map f cs = some (b, r) ↔ ∃ a, p cs = some (a, r) ∧ f a = b := by
  simp only [map, Option.map_eq_some_iff, Prod.mk.injEq, Prod.exists]
  refine ⟨fun ⟨a, r', ha, hb, hr⟩ ↦ ⟨a, hr ▸ ha, hb⟩, fun ⟨a, ha, hb⟩ ↦ ⟨a, r, ha, hb, rfl⟩⟩

theorem map_of_none {f : α → β} {cs : List Char} (h : p cs = none) : p.map f cs = none := by
  rw [map, h, Option.map_none]

theorem firstOf_cons (p : Reader α) (ps : List (Reader α)) (cs : List Char) :
    firstOf (p :: ps) cs = (p cs).or (firstOf ps cs) := by
  rw [firstOf, Reader.or]
  cases p cs <;> rfl

theorem firstOf_of_some {ps : List (Reader α)} {cs : List Char} {x : α × List Char}
    (h : p cs = some x) : firstOf (p :: ps) cs = some x := by
  rw [firstOf_cons, h, Option.some_or]

theorem firstOf_of_none {ps : List (Reader α)} {cs : List Char} (h : p cs = none) :
    firstOf (p :: ps) cs = firstOf ps cs := by
  rw [firstOf_cons, h, Option.none_or]

/-- What is read is read by one of the readers. -/
theorem exists_of_firstOf {ps : List (Reader α)} {cs : List Char} {x : α × List Char}
    (h : firstOf ps cs = some x) : ∃ p ∈ ps, p cs = some x := by
  induction ps with
  | nil => exact absurd h (by simp [firstOf])
  | cons p ps ih =>
    rw [firstOf_cons, Option.or_eq_some_iff] at h
    rcases h with h | ⟨-, h⟩
    · exact ⟨p, List.mem_cons_self, h⟩
    · obtain ⟨p', hp', h'⟩ := ih h
      exact ⟨p', List.mem_cons_of_mem _ hp', h'⟩

theorem firstOf_eq_none {ps : List (Reader α)} {cs : List Char} (h : ∀ p ∈ ps, p cs = none) :
    firstOf ps cs = none := by
  refine Option.eq_none_iff_forall_ne_some.2 fun x hsome ↦ ?_
  obtain ⟨p, hp, hx⟩ := exists_of_firstOf hsome
  exact absurd ((h p hp).symm.trans hx) (by simp)

theorem followedBy_eq_some_iff {cs r : List Char} {a : α} :
    p.followedBy q cs = some (a, r) ↔ ∃ r' b, p cs = some (a, r') ∧ q r' = some (b, r) := by
  simp only [followedBy, Option.bind_eq_bind, Option.bind_eq_some_iff, Prod.exists,
    Option.pure_def, Option.some.injEq, Prod.mk.injEq]
  refine ⟨?_, ?_⟩
  · rintro ⟨a', r', ha, b, r'', hb, rfl, rfl⟩
    exact ⟨r', b, ha, hb⟩
  · rintro ⟨r', b, ha, hb⟩
    exact ⟨a, r', ha, b, r, hb, rfl, rfl⟩

theorem followedBy_of_none {cs : List Char} (h : p cs = none) : p.followedBy q cs = none := by
  rw [followedBy, h]
  rfl

theorem followedBy_of_none_right {cs r : List Char} {a : α} (h : p cs = some (a, r))
    (hq : q r = none) : p.followedBy q cs = none := by
  refine Option.eq_none_iff_forall_ne_some.2 fun ⟨a', r'⟩ hsome ↦ ?_
  obtain ⟨r'', b, ha, hb⟩ := followedBy_eq_some_iff.1 hsome
  obtain ⟨rfl, rfl⟩ := Prod.mk.inj (Option.some.inj (h.symm.trans ha))
  exact absurd (hq.symm.trans hb) (by simp)

theorem after_eq_some_iff {cs r : List Char} {a : α} :
    q.after p cs = some (a, r) ↔ ∃ b r', q cs = some (b, r') ∧ p r' = some (a, r) := by
  simp only [after, Option.bind_eq_bind, Option.bind_eq_some_iff, Prod.exists]

theorem after_of_none {cs : List Char} (h : q cs = none) : q.after p cs = none := by
  rw [after, h]
  rfl

theorem optional_of_some {cs r : List Char} {a : α} (h : p cs = some (a, r)) :
    p.optional cs = some (some a, r) := by
  rw [optional, h]

theorem optional_of_none {cs : List Char} (h : p cs = none) : p.optional cs = some (none, cs) := by
  rw [optional, h]

/-! ### Words -/

theorem char_cons (c : Char) (r : List Char) : char c (c :: r) = some ((), r) := if_pos rfl

/-- **A word** is taken in any letter case. -/
theorem word_eq_some_iff {w cs r : List Char} :
    word w cs = some ((), r) ↔ ∃ u, cs = u ++ r ∧ u.map Char.toLower = w := by
  induction w generalizing cs with
  | nil =>
    rw [word, Option.some.injEq, Prod.mk.injEq]
    refine ⟨fun h ↦ ⟨[], h.2, rfl⟩, fun ⟨u, hcs, hu⟩ ↦ ⟨rfl, ?_⟩⟩
    rw [hcs, List.map_eq_nil_iff.1 hu, List.nil_append]
  | cons c w ih =>
    cases cs with
    | nil =>
      refine ⟨fun h ↦ absurd h (by simp [word]), fun ⟨u, hcs, hu⟩ ↦ ?_⟩
      rw [(List.append_eq_nil_iff.1 hcs.symm).1] at hu
      exact absurd hu (by simp)
    | cons d cs =>
      rw [word]
      refine ⟨fun h ↦ ?_, fun ⟨u, hcs, hu⟩ ↦ ?_⟩
      · split at h
        · rename_i hd
          obtain ⟨u, rfl, hu⟩ := ih.1 h
          exact ⟨d :: u, rfl, by rw [List.map_cons, hd, hu]⟩
        · exact absurd h (by simp)
      · cases u with
        | nil => exact absurd hu (by simp)
        | cons e u =>
          obtain ⟨rfl, hrest⟩ := List.cons.inj hcs
          obtain ⟨hd, htail⟩ := List.cons.inj hu
          rw [if_pos hd]
          exact ih.2 ⟨u, hrest, htail⟩

theorem word_append {w u : List Char} (h : u.map Char.toLower = w) (rest : List Char) :
    word w (u ++ rest) = some ((), rest) :=
  word_eq_some_iff.2 ⟨u, rfl, h⟩

/-- Two texts that differ before either has ended. -/
def clashes : List Char → List Char → Bool
  | c :: w, d :: u => c != d || clashes w u
  | _, _ => false

/-- **A text that clashes with a word** does not start with it. -/
theorem word_of_clashes {w u : List Char} (h : clashes w (u.map Char.toLower) = true)
    (rest : List Char) : word w (u ++ rest) = none := by
  induction w generalizing u with
  | nil => exact absurd h (by simp [clashes])
  | cons c w ih =>
    cases u with
    | nil => exact absurd h (by simp [clashes])
    | cons d u =>
      rw [List.map_cons, clashes, Bool.or_eq_true, bne_iff_ne] at h
      rw [List.cons_append, word]
      split
      · rename_i hd
        exact ih (h.resolve_left (not_not.2 hd.symm))
      · rfl

theorem keyword_append {w : String} {a : α} {u : List Char} (h : u.map Char.toLower = w.toList)
    (rest : List Char) : keyword w a (u ++ rest) = some (a, rest) :=
  map_eq_some_iff.2 ⟨(), word_append h rest, rfl⟩

theorem keyword_of_clashes {w : String} {a : α} {u : List Char}
    (h : clashes w.toList (u.map Char.toLower) = true) (rest : List Char) :
    keyword w a (u ++ rest) = none :=
  map_of_none (word_of_clashes h rest)

/-- **A word out of a table** is told apart from the words in front of it. -/
theorem firstOf_keywords {table : List (String × α)} {w : String} {a : α} {u : List Char}
    (hmem : (w, a) ∈ table)
    (hapart : table.Pairwise fun e e' ↦ clashes e.1.toList e'.1.toList = true)
    (h : u.map Char.toLower = w.toList) (rest : List Char) :
    firstOf (table.map fun (w, a) ↦ keyword w a) (u ++ rest) = some (a, rest) := by
  induction table with
  | nil => exact absurd hmem List.not_mem_nil
  | cons e table ih =>
    obtain ⟨hfront, hrest⟩ := List.pairwise_cons.1 hapart
    rw [List.map_cons]
    rcases List.mem_cons.1 hmem with rfl | hmem
    · exact firstOf_of_some (keyword_append h rest)
    · rw [firstOf_of_none (keyword_of_clashes (h ▸ hfront _ hmem) rest), ih hmem hrest]

/-! ### Blanks -/

/-- Blanks only. -/
def Blanks (cs : List Char) : Prop := ∀ c ∈ cs, c.isWhitespace = true

theorem Blanks.nil : Blanks [] := fun _ hc ↦ absurd hc List.not_mem_nil

theorem padded_eq (p : Reader α) (cs : List Char) : p.padded cs =
    (p (cs.dropWhile Char.isWhitespace)).map fun x ↦ (x.1, x.2.dropWhile Char.isWhitespace) := by
  rw [padded, followedBy, after, blanks]
  cases h : p (cs.dropWhile Char.isWhitespace) <;> simp [h, blanks]

/-- **A reader with blanks around it.** -/
theorem padded_append {before w after rest : List Char} {a : α} (hbefore : Blanks before)
    (hw : ∀ c ∈ (w ++ (after ++ rest)).head?, c.isWhitespace = false) (hafter : Blanks after)
    (hrest : ∀ c ∈ rest.head?, c.isWhitespace = false)
    (h : p (w ++ (after ++ rest)) = some (a, after ++ rest)) :
    p.padded (before ++ (w ++ (after ++ rest))) = some (a, rest) := by
  rw [padded_eq, Text.dropWhile_append_left hbefore hw, h, Option.map_some,
    Text.dropWhile_append_left hafter hrest]

theorem someBlanks_append {b rest : List Char} (hb : Blanks b) (hne : b ≠ [])
    (hrest : ∀ c ∈ rest.head?, c.isWhitespace = false) :
    someBlanks (b ++ rest) = some ((), rest) := by
  cases b with
  | nil => exact absurd rfl hne
  | cons c b =>
    rw [List.cons_append, someBlanks, if_pos (hb c List.mem_cons_self),
      Text.dropWhile_append_left (fun d hd ↦ hb d (List.mem_cons_of_mem _ hd)) hrest]

theorem someBlanks_of_head {rest : List Char} (h : ∀ c ∈ rest.head?, c.isWhitespace = false) :
    someBlanks rest = none := by
  cases rest with
  | nil => rfl
  | cons c r => exact if_neg (by rw [h c rfl]; decide)

/-! ### Lists -/

/-- Where a value ends: at a blank, a comma, a closing parenthesis, or with the text. -/
def Breaks (rest : List Char) : Prop := ∀ c ∈ rest.head?, c ∈ [' ', '\t', '\r', '\n', ',', ')']

/-- What no break satisfies does not follow. -/
theorem Breaks.not {rest : List Char} (h : Breaks rest) {q : Char → Bool}
    (hq : [' ', '\t', '\r', '\n', ',', ')'].any q = false) : ∀ c ∈ rest.head?, q c = false :=
  fun c hc ↦ Bool.eq_false_iff.2 (List.any_eq_false.1 hq c (h c hc))

theorem Breaks.of_blanks {cs : List Char} (h : Blanks cs) : Breaks cs := fun c hc ↦ by
  rcases Text.eq_of_isWhitespace (h c (List.mem_of_mem_head? hc)) with rfl | rfl | rfl | rfl <;>
    decide

theorem Breaks.append {cs rest : List Char} (h : Blanks cs) (hrest : Breaks rest) :
    Breaks (cs ++ rest) := by
  cases cs with
  | nil => exact hrest
  | cons c cs => exact fun d hd ↦ Breaks.of_blanks h d hd

/-- No word starts with a break. -/
theorem word_of_breaks {c : Char} {w rest : List Char} (hc : c.isAlpha = true)
    (h : Breaks rest) : word (c :: w) rest = none := by
  cases rest with
  | nil => rfl
  | cons d r =>
    rw [word, if_neg]
    rintro rfl
    have hd := h d rfl
    simp only [List.mem_cons, List.not_mem_nil, or_false] at hd
    rcases hd with rfl | rfl | rfl | rfl | rfl | rfl <;> exact absurd hc (by decide)

/-- What a reader takes off a text leaves less of it. -/
theorem moreItems_of_some {item : Reader α} {separator : Reader Unit} {cs r : List Char} {a : α}
    (h : separator.after item cs = some (a, r)) (hr : r.length < cs.length) :
    moreItems item separator cs =
      (a :: (moreItems item separator r).1, (moreItems item separator r).2) := by
  rw [moreItems]
  simp only [h, dif_pos hr]

theorem moreItems_of_none {item : Reader α} {separator : Reader Unit} {cs : List Char}
    (h : separator.after item cs = none) : moreItems item separator cs = ([], cs) := by
  rw [moreItems, h]

/-- Where an item of a list ends: at a comma or at the parenthesis that closes the list. -/
def EndsItem (rest : List Char) : Prop := rest.head? = some ',' ∨ rest.head? = some ')'

theorem EndsItem.breaks {rest : List Char} (h : EndsItem rest) : Breaks rest := fun c hc ↦ by
  rcases h with h | h
  · obtain rfl := Option.some.inj (h.symm.trans hc)
    decide
  · obtain rfl := Option.some.inj (h.symm.trans hc)
    decide

theorem EndsItem.head {rest : List Char} (h : EndsItem rest) :
    ∀ c ∈ rest.head?, c.isWhitespace = false := fun c hc ↦ by
  rcases h with h | h
  · obtain rfl := Option.some.inj (h.symm.trans hc)
    decide
  · obtain rfl := Option.some.inj (h.symm.trans hc)
    decide

/-- The texts of the further items of a list, each after a comma. -/
def afterCommas (ws : List (List Char)) : List Char := ws.flatMap (',' :: ·)

/-- **A list of items with commas between them**, which is closed by a parenthesis: it is read to
its end if each item is read up to the next comma or the end. -/
theorem separated_commas {item : Reader α} {takes : List Char → α → Prop}
    (hitem : ∀ w a, takes w a → ∀ rest, EndsItem rest → item (w ++ rest) = some (a, rest))
    {w : List Char} {a : α} {ws : List (List Char)} {as : List α} (h : takes w a)
    (hs : List.Forall₂ takes ws as) (rest : List Char) :
    separated item (char ',') (w ++ (afterCommas ws ++ ')' :: rest)) =
      some (a :: as, ')' :: rest) := by
  -- what is left after an item starts with a comma or is the end
  have hhead : ∀ ws, EndsItem (afterCommas ws ++ ')' :: rest) := by
    rintro (- | ⟨w, ws⟩)
    · exact .inr rfl
    · exact .inl rfl
  have hmore : moreItems item (char ',') (afterCommas ws ++ ')' :: rest) =
      (as, ')' :: rest) := by
    induction hs with
    | nil => exact moreItems_of_none (after_of_none rfl)
    | @cons v b vs bs hb hbs ih =>
      have hsplit : afterCommas (v :: vs) ++ ')' :: rest =
          ',' :: (v ++ (afterCommas vs ++ ')' :: rest)) := by
        simp [afterCommas]
      have hread : (char ',').after item (afterCommas (v :: vs) ++ ')' :: rest) =
          some (b, afterCommas vs ++ ')' :: rest) :=
        after_eq_some_iff.2 ⟨(), _, hsplit ▸ char_cons _ _, hitem v b hb _ (hhead vs)⟩
      have hshorter : (afterCommas vs ++ ')' :: rest).length <
          (afterCommas (v :: vs) ++ ')' :: rest).length := by
        rw [hsplit]
        simp only [List.length_cons, List.length_append]
        omega
      rw [moreItems_of_some hread hshorter, ih]
  rw [separated, hitem w a h _ (hhead ws)]
  simp [hmore]

end Reader

end ViewCompiler
