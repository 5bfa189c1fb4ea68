import Mathlib.Data.List.Chain
import Mathlib.Data.List.Nodup
import Mathlib.Data.List.Perm.Subperm

/-!
# Trails along links

A thing is known by a key and may have a link, which is the key of a further thing. Nothing is
assumed of links: one may lead to a key that nothing is known by, and they may lead round in a loop,
from the start or after some way. `Trail` is the loop of a walk that keeps the keys it has met and
goes on neither from one of these nor from one that nothing is known by.

A walk comes to an end where finitely many keys are in use (`exists_trail`), because it goes through
each of them once (`Trail.nodup`). Its end can be told without what it keeps, by following links
alone (`follow?`). It meets a key again exactly if the same key comes after two different numbers of
links (`Trail.met_iff`), and a key is missing exactly if it comes after some number of links
(`Trail.missing_iff`). For the one direction what has been gone through holds every key that comes
after any number of links (`Trail.mem_of_follow?`); for the other, a walk that meets no key again
lists the keys that come, to the last (`Trail.follow?_eq`).
-/

namespace ViewCompiler

/-- How a walk along links ends. -/
inductive TrailEnd (α : Type) where
  /-- With a thing that has no link. -/
  | top
  /-- At a key that nothing is known by. -/
  | missing (key : α)
  /-- At a key that has been met before. -/
  | met (key : α)

/-- The key at which a walk stops without going through it. -/
def TrailEnd.keys {α : Type} : TrailEnd α → List α
  | top => []
  | missing key => [key]
  | met key => [key]

/-- **The loop of a walk along links**, from the keys that have been met and the present one to the
keys that it goes through and how it ends. Nothing is known by a key without a value in `links`. -/
inductive Trail {α : Type} (links : α → Option (Option α)) :
    List α → α → List α → TrailEnd α → Prop
  | met {seen : List α} {i : α} (old : i ∈ seen) : Trail links seen i [] (.met i)
  | missing {seen : List α} {i : α} (new : i ∉ seen) (unknown : links i = none) :
      Trail links seen i [] (.missing i)
  | top {seen : List α} {i : α} (new : i ∉ seen) (last : links i = some none) :
      Trail links seen i [i] .top
  | step {seen l : List α} {i p : α} {e : TrailEnd α} (new : i ∉ seen)
      (link : links i = some (some p)) (rest : Trail links (i :: seen) p l e) :
      Trail links seen i (i :: l) e

section

variable {α : Type} {links : α → Option (Option α)} {seen l : List α} {i p x : α} {e : TrailEnd α}

/-! ### Following links -/

/-- The key after a number of links. -/
def follow? (links : α → Option (Option α)) : Nat → α → Option α
  | 0, i => some i
  | k + 1, i => (links i).join.bind (follow? links k)

theorem follow?_succ_of_link (h : links i = some (some p)) (k : Nat) :
    follow? links (k + 1) i = follow? links k p := by
  rw [follow?, h]
  rfl

theorem follow?_succ_of_join (h : (links i).join = none) (k : Nat) :
    follow? links (k + 1) i = none := by
  rw [follow?, h, Option.bind_none]

/-- The last link of some is that of the key before it. -/
theorem exists_link_of_follow?_succ {k : Nat} (h : follow? links (k + 1) i = some x) :
    ∃ y, follow? links k i = some y ∧ links y = some (some x) := by
  induction k generalizing i with
  | zero =>
    obtain ⟨p, hp, hx⟩ := Option.bind_eq_some_iff.1 h
    obtain rfl := Option.some.inj hx
    exact ⟨i, rfl, Option.join_eq_some_iff.1 hp⟩
  | succ k ih =>
    obtain ⟨p, hp, hx⟩ := Option.bind_eq_some_iff.1 h
    obtain ⟨y, hy, hlink⟩ := ih hx
    exact ⟨y, (follow?_succ_of_link (Option.join_eq_some_iff.1 hp) k).trans hy, hlink⟩

/-! ### What a walk goes through -/

namespace Trail

/-- **A walk goes through no key twice.** -/
theorem nodup (h : Trail links seen i l e) : l.Nodup ∧ ∀ x ∈ l, x ∉ seen := by
  induction h with
  | met => simp
  | missing => simp
  | top new => simpa using new
  | step new _ _ ih =>
    obtain ⟨hnodup, hunseen⟩ := ih
    refine ⟨List.nodup_cons.2 ⟨fun hi ↦ hunseen _ hi List.mem_cons_self, hnodup⟩, ?_⟩
    exact List.forall_mem_cons.2 ⟨new, fun x hx hmem ↦ hunseen x hx (List.mem_cons_of_mem _ hmem)⟩

/-- Something is known by every key that it goes through. -/
theorem known (h : Trail links seen i l e) : ∀ x ∈ l, links x ≠ none := by
  induction h with
  | met => simp
  | missing => simp
  | top _ last => simp [last]
  | step _ link _ ih => exact List.forall_mem_cons.2 ⟨by simp [link], ih⟩

theorem length_le (h : Trail links seen i l e) {support : List α}
    (hsupport : ∀ i, links i ≠ none → i ∈ support) : l.length ≤ support.length :=
  (List.subperm_of_subset h.nodup.1 fun x hx ↦ hsupport x (h.known x hx)).length_le

/-- It starts with the key that it starts from. -/
theorem eq_of_mem_head? (h : Trail links seen i l e) : ∀ x ∈ l.head?, x = i := by
  cases h <;> simp

/-- It goes from each key to the one that its link gives. -/
theorem isChain (h : Trail links seen i l e) : l.IsChain fun a b ↦ links a = some (some b) := by
  induction h with
  | met => exact .nil
  | missing => exact .nil
  | top => exact .singleton _
  | step _ link rest ih =>
    refine List.isChain_cons.2 ⟨fun b hb ↦ ?_, ih⟩
    rw [rest.eq_of_mem_head? b hb]
    exact link

theorem unknown (h : Trail links seen i l e) (he : e = .missing x) : links x = none := by
  induction h with
  | met => exact absurd he (by simp)
  | missing _ unknown =>
    obtain rfl := TrailEnd.missing.inj he
    exact unknown
  | top => exact absurd he (by simp)
  | step _ _ _ ih => exact ih he

/-- What is met again has been met before the walk or by it. -/
theorem mem_of_met (h : Trail links seen i l e) (he : e = .met x) : x ∈ seen ∨ x ∈ l := by
  induction h with
  | met old =>
    obtain rfl := TrailEnd.met.inj he
    exact .inl old
  | missing => exact absurd he (by simp)
  | top => exact absurd he (by simp)
  | step _ _ _ ih =>
    rcases ih he with hseen | hl
    · rcases List.mem_cons.1 hseen with rfl | hseen
      · exact .inr List.mem_cons_self
      · exact .inl hseen
    · exact .inr (List.mem_cons_of_mem _ hl)

theorem first_mem (h : Trail links seen i l e) : i ∈ l ++ e.keys := by
  cases h <;> simp [TrailEnd.keys]

/-- **A walk leaves out no link** of what it goes through. -/
theorem closed (h : Trail links seen i l e) :
    ∀ x ∈ l, ∀ p, links x = some (some p) → p ∈ l ++ e.keys := by
  induction h with
  | met => simp
  | missing => simp
  | top _ last => simp [last]
  | step _ link rest ih =>
    intro x hx q hq
    refine List.mem_cons_of_mem _ ?_
    rcases List.mem_cons.1 hx with rfl | hx
    · rw [link] at hq
      obtain rfl := Option.some.inj (Option.some.inj hq)
      exact rest.first_mem
    · exact ih x hx q hq

/-- A link of what a walk goes through is gone through as well, unless nothing is known by it or it
has been met before the walk. -/
theorem link_cases (h : Trail links seen i l e) (hx : x ∈ l) (hp : links x = some (some p)) :
    links p = none ∨ p ∈ seen ∨ p ∈ l := by
  rcases List.mem_append.1 (h.closed x hx p hp) with hl | hkey
  · exact .inr (.inr hl)
  · cases e with
    | top => exact absurd hkey List.not_mem_nil
    | missing q =>
      obtain rfl := List.mem_singleton.1 hkey
      exact .inl (h.unknown rfl)
    | met q =>
      obtain rfl := List.mem_singleton.1 hkey
      exact .inr (h.mem_of_met rfl)

/-- **A walk lists the keys that come after so many links**, all of them unless it meets one
again. -/
theorem follow?_eq (h : Trail links seen i l e) {k : Nat}
    (hk : k < (l ++ e.keys).length ∨ ∀ x, e ≠ .met x) :
    follow? links k i = (l ++ e.keys)[k]? := by
  induction h generalizing k with
  | @met seen i old =>
    obtain rfl : k = 0 := by
      simpa [TrailEnd.keys] using hk.resolve_right fun h ↦ h i rfl
    rfl
  | missing _ unknown =>
    cases k with
    | zero => rfl
    | succ k => exact follow?_succ_of_join (by rw [unknown]; rfl) k
  | top _ last =>
    cases k with
    | zero => rfl
    | succ k => exact follow?_succ_of_join (by rw [last]; rfl) k
  | step _ link _ ih =>
    cases k with
    | zero => rfl
    | succ k =>
      rw [follow?_succ_of_link link]
      exact ih (hk.imp_left fun h ↦ by simpa using h)

end Trail

/-- **A walk comes to an end** if finitely many keys are in use. -/
theorem exists_trail {support : List α} (hsupport : ∀ i, links i ≠ none → i ∈ support)
    (hnodup : seen.Nodup) (hseen : seen ⊆ support) (i : α) : ∃ l e, Trail links seen i l e := by
  -- as long as the walk goes on there are fewer keys left that it has not met
  induction hn : support.length - seen.length using Nat.strongRecOn
    generalizing seen i with
  | ind n ih =>
    by_cases hi : i ∈ seen
    · exact ⟨[], _, .met hi⟩
    · cases hlinks : links i with
      | none => exact ⟨[], _, .missing hi hlinks⟩
      | some link =>
        cases link with
        | none => exact ⟨[i], _, .top hi hlinks⟩
        | some p =>
          have hcons : (i :: seen).Nodup := List.nodup_cons.2 ⟨hi, hnodup⟩
          have hsubset : i :: seen ⊆ support :=
            List.cons_subset.2 ⟨hsupport i (by simp [hlinks]), hseen⟩
          have hle := (List.subperm_of_subset hcons hsubset).length_le
          rw [List.length_cons] at hle
          obtain ⟨l, e, h⟩ := ih _ (by rw [List.length_cons]; omega) hcons hsubset p rfl
          exact ⟨i :: l, e, .step hi hlinks h⟩

/-! ### The end of a walk -/

namespace Trail

variable (h : Trail links [] i l e)

include h

/-- **All that comes after any number of links** has been gone through, or is where the walk
ends. -/
theorem mem_of_follow? {k : Nat} (hx : follow? links k i = some x) : x ∈ l ++ e.keys := by
  induction k generalizing x with
  | zero =>
    obtain rfl := Option.some.inj hx
    exact h.first_mem
  | succ k ih =>
    obtain ⟨y, hy, hlink⟩ := exists_link_of_follow?_succ hx
    have hgone : y ∈ l := by
      rcases List.mem_append.1 (ih hy) with hl | hkey
      · exact hl
      · cases e with
        | top => exact absurd hkey List.not_mem_nil
        | missing q =>
          obtain rfl := List.mem_singleton.1 hkey
          exact absurd (hlink.symm.trans (h.unknown rfl)) (by simp)
        | met q =>
          obtain rfl := List.mem_singleton.1 hkey
          exact (h.mem_of_met rfl).resolve_left List.not_mem_nil
    exact h.closed y hgone x hlink

/-- **A walk ends at a missing key** exactly if nothing is known by it and it comes after some
number of links. -/
theorem missing_iff : e = .missing x ↔ links x = none ∧ ∃ k, follow? links k i = some x := by
  constructor
  · intro he
    refine ⟨h.unknown he, l.length, ?_⟩
    rw [h.follow?_eq (.inr (by simp [he])), he]
    simp [TrailEnd.keys]
  · rintro ⟨hunknown, k, hk⟩
    have hnot : x ∉ l := fun hx ↦ h.known x hx hunknown
    have hkey := (List.mem_append.1 (h.mem_of_follow? hk)).resolve_left hnot
    cases e with
    | top => exact absurd hkey List.not_mem_nil
    | missing q => rw [List.mem_singleton.1 hkey]
    | met q =>
      obtain rfl := List.mem_singleton.1 hkey
      exact absurd ((h.mem_of_met rfl).resolve_left List.not_mem_nil) hnot

/-- The keys of a walk that meets none again differ, with the one that is missing. -/
theorem nodup_keys (he : ∀ x, e ≠ .met x) : (l ++ e.keys).Nodup := by
  cases e with
  | top => simpa [TrailEnd.keys] using h.nodup.1
  | missing q =>
    have hq : q ∉ l := fun hq ↦ h.known q hq (h.unknown rfl)
    exact h.nodup.1.append (List.nodup_singleton q) (List.disjoint_singleton.2 hq)
  | met q => exact absurd rfl (he q)

/-- **A walk meets a key again** exactly if the same key comes after two different numbers of
links. -/
theorem met_iff : (∃ x, e = .met x) ↔
    ∃ j k x, j < k ∧ follow? links j i = some x ∧ follow? links k i = some x := by
  constructor
  · rintro ⟨x, rfl⟩
    obtain ⟨j, hj, rfl⟩ := List.getElem_of_mem ((h.mem_of_met rfl).resolve_left List.not_mem_nil)
    refine ⟨j, l.length, l[j], hj, ?_, ?_⟩
    · rw [h.follow?_eq (.inl (by simp [TrailEnd.keys]; omega)), List.getElem?_append_left hj,
        List.getElem?_eq_getElem hj]
    · rw [h.follow?_eq (.inl (by simp [TrailEnd.keys]))]
      simp [TrailEnd.keys]
  · rintro ⟨j, k, x, hlt, hj, hk⟩
    by_contra hnot
    have he : ∀ x, e ≠ .met x := fun x hx ↦ hnot ⟨x, hx⟩
    rw [h.follow?_eq (.inr he)] at hj hk
    have hlength := (List.getElem?_eq_some_iff.1 hk).1
    exact List.nodup_iff_getElem?_ne_getElem?.1 (h.nodup_keys he) j k hlt hlength
      (hj.trans hk.symm)

end Trail

end

end ViewCompiler
