import Mathlib.Algebra.Group.Nat.Defs
import Mathlib.Data.List.Basic
import ViewCompiler.Template.Fragment

/-!
# Markers

Which texts are markers of a slot is said without a reader: two numbers in decimal digits, each
within thirty-two bits, between words that are fixed (`Placeholder.Spells`). A number may have zeros
in front, and a position of zero may have a minus sign, so a slot has more than one marker.

`Placeholder.read?_eq_some_iff` says that the reader takes exactly the markers off the front of a
text. The marker that is printed is one of them (`Placeholder.Spells.spells_marker`), and the only
one of its length; all others are longer (`Placeholder.Spells.eq_marker_or_lt`). No two markers
overlap: one that begins in another one begins where the other one does
(`Placeholder.Spells.exists_append_of_append_eq`).
-/

namespace ViewCompiler

namespace Placeholder

/-- Decimal digits of a number. There may be zeros in front. -/
structure Decimal (n : Nat) (ds : List Char) : Prop where
  ne_nil : ds ≠ []
  isDigit : ∀ c ∈ ds, c.isDigit = true
  value : Nat.ofDigitChars 10 ds 0 = n

/-- Decimal digits of a signed number in thirty-two bits, perhaps with a minus sign. -/
inductive Signed : Int → List Char → Prop where
  | plain {n : Nat} {ds : List Char} (digits : Decimal n ds) (fits : n < twoPow 31) : Signed n ds
  | minus {n : Nat} {ds : List Char} (digits : Decimal n ds) (fits : n ≤ twoPow 31) :
    Signed (-n) ('-' :: ds)

/-- What a marker begins with. -/
def opener : List Char := ['\x7b', '\x7b', 's', 'l', 'o', 't', ':']

/-- What a marker ends with. -/
def closer : List Char := ['\x7d', '\x7d']

/-- The marker of a slot whose numbers are written in given digits. -/
def markerOf (owner position : List Char) : List Char :=
  opener ++ (owner ++ ':' :: (position ++ closer))

/-- A well-formed marker of a slot. -/
inductive Spells (p : Placeholder) : List Char → Prop where
  | intro {owner position : List Char} (digits : Decimal p.owner owner)
      (fits : p.owner < twoPow 32) (signed : Signed p.position position) :
    Spells p (markerOf owner position)

/-! ### Reading -/

theorem dropWord?_eq_some_iff {w cs r : List Char} : dropWord? w cs = some r ↔ cs = w ++ r := by
  induction w generalizing cs with
  | nil => simp [dropWord?]
  | cons c w ih =>
    cases cs with
    | nil => simp [dropWord?]
    | cons c' cs =>
      rw [dropWord?]
      split
      · rename_i heq
        rw [ih, heq, List.cons_append, List.cons_inj_right]
      · rename_i hne
        simp [Ne.symm hne]

/-- The digits end where the text goes on with something else. -/
theorem readDigits?_eq_some_iff {cs r : List Char} {n : Nat} :
    readDigits? cs = some (n, r) ↔
      ∃ ds, Decimal n ds ∧ cs = ds ++ r ∧ ∀ c ∈ r.head?, c.isDigit = false := by
  rw [readDigits?]
  constructor
  · intro h
    split at h
    · exact absurd h (by simp)
    · rename_i hne
      obtain ⟨hn, rfl⟩ := Prod.mk.inj (Option.some.inj h)
      refine ⟨cs.takeWhile Char.isDigit,
        ⟨fun hnil ↦ hne (by rw [hnil]; rfl), List.all_eq_true.1 List.all_takeWhile, hn⟩,
        List.takeWhile_append_dropWhile.symm, fun c hc ↦ ?_⟩
      have hhead := List.head?_dropWhile_not Char.isDigit cs
      rw [Option.mem_def.1 hc] at hhead
      exact hhead
  · rintro ⟨ds, ⟨hne, hdigit, rfl⟩, rfl, hhead⟩
    have htake : r.takeWhile Char.isDigit = [] := by
      cases r with
      | nil => rfl
      | cons c r => exact List.takeWhile_cons_of_neg (by simp [hhead c rfl])
    have hdrop : r.dropWhile Char.isDigit = r := by
      cases r with
      | nil => rfl
      | cons c r => exact List.dropWhile_cons_of_neg (by simp [hhead c rfl])
    rw [List.takeWhile_append_of_pos hdigit, List.dropWhile_append_of_pos hdigit, htake, hdrop,
      List.append_nil]
    simp [hne, Nat.ofDigitChars]

/-- A number that is read is kept if it is in some bounds, and made into a value of another type. -/
theorem bind_readDigits?_eq_some_iff {α : Type} {cs r : List Char} {a : α} (fits : Nat → Prop)
    [DecidablePred fits] (value : Nat → α) :
    ((readDigits? cs).bind fun e ↦ if fits e.1 then some (value e.1, e.2) else none) = some (a, r) ↔
      ∃ n, a = value n ∧ fits n ∧ readDigits? cs = some (n, r) := by
  rw [Option.bind_eq_some_iff]
  constructor
  · rintro ⟨⟨n, r'⟩, hdigits, hrest⟩
    dsimp only at hrest
    split at hrest
    · rename_i hfits
      obtain ⟨rfl, rfl⟩ := Prod.mk.inj (Option.some.inj hrest)
      exact ⟨n, rfl, hfits, hdigits⟩
    · exact absurd hrest (by simp)
  · rintro ⟨n, rfl, hfits, hdigits⟩
    exact ⟨(n, r), hdigits, if_pos hfits⟩

theorem readOwner?_eq_some_iff {cs r : List Char} {n : NodeId} :
    readOwner? cs = some (n, r) ↔
      ∃ ds, (Decimal n ds ∧ n < twoPow 32) ∧ cs = ds ++ r ∧ ∀ c ∈ r.head?, c.isDigit = false := by
  refine (bind_readDigits?_eq_some_iff (· < twoPow 32) id).trans ⟨?_, ?_⟩
  · rintro ⟨n, rfl, hfits, hdigits⟩
    obtain ⟨ds, hds, hsplit⟩ := readDigits?_eq_some_iff.1 hdigits
    exact ⟨ds, ⟨hds, hfits⟩, hsplit⟩
  · rintro ⟨ds, ⟨hds, hfits⟩, hsplit⟩
    exact ⟨n, rfl, hfits, readDigits?_eq_some_iff.2 ⟨ds, hds, hsplit⟩⟩

theorem readPosition?_minus_eq_some_iff {cs r : List Char} {z : Int} :
    readPosition? ('-' :: cs) = some (z, r) ↔
      ∃ n : Nat, z = -n ∧ n ≤ twoPow 31 ∧ readDigits? cs = some (n, r) :=
  bind_readDigits?_eq_some_iff (· ≤ twoPow 31) (fun n ↦ -(n : Int))

theorem readPosition?_plain_eq_some_iff {cs r : List Char} {z : Int}
    (hcs : ∀ c ∈ cs.head?, c ≠ '-') :
    readPosition? cs = some (z, r) ↔
      ∃ n : Nat, z = n ∧ n < twoPow 31 ∧ readDigits? cs = some (n, r) := by
  rw [readPosition?.eq_2 cs fun r' heq ↦ hcs '-' (by rw [heq]; rfl) rfl]
  exact bind_readDigits?_eq_some_iff (· < twoPow 31) Int.ofNat

theorem Decimal.exists_cons {n : Nat} {ds : List Char} (h : Decimal n ds) :
    ∃ c cs, ds = c :: cs ∧ c.isDigit = true := by
  obtain ⟨c, cs, rfl⟩ := List.exists_cons_of_ne_nil h.ne_nil
  exact ⟨c, cs, rfl, h.isDigit c List.mem_cons_self⟩

theorem Decimal.head?_ne_minus {n : Nat} {ds : List Char} (h : Decimal n ds) (r : List Char) :
    ∀ c ∈ (ds ++ r).head?, c ≠ '-' := by
  obtain ⟨c, cs, rfl, hc⟩ := h.exists_cons
  intro c' hc' heq
  obtain rfl := Option.some.inj hc'
  rw [heq] at hc
  exact absurd hc (by decide)

theorem readPosition?_eq_some_iff {cs r : List Char} {z : Int} :
    readPosition? cs = some (z, r) ↔
      ∃ ds, Signed z ds ∧ cs = ds ++ r ∧ ∀ c ∈ r.head?, c.isDigit = false := by
  constructor
  · intro h
    by_cases hminus : ∃ cs', cs = '-' :: cs'
    · obtain ⟨cs', rfl⟩ := hminus
      obtain ⟨n, rfl, hfits, hdigits⟩ := readPosition?_minus_eq_some_iff.1 h
      obtain ⟨ds, hds, rfl, hhead⟩ := readDigits?_eq_some_iff.1 hdigits
      exact ⟨'-' :: ds, .minus hds hfits, rfl, hhead⟩
    · have hcs : ∀ c ∈ cs.head?, c ≠ '-' := by
        cases cs with
        | nil => simp
        | cons c cs' =>
          intro c' hc' heq
          obtain rfl := Option.some.inj hc'
          exact hminus ⟨cs', by rw [heq]⟩
      obtain ⟨n, rfl, hfits, hdigits⟩ := (readPosition?_plain_eq_some_iff hcs).1 h
      obtain ⟨ds, hds, rfl, hhead⟩ := readDigits?_eq_some_iff.1 hdigits
      exact ⟨ds, .plain hds hfits, rfl, hhead⟩
  · rintro ⟨ds, hsigned, rfl, hhead⟩
    cases hsigned with
    | plain hds hfits =>
      exact (readPosition?_plain_eq_some_iff (hds.head?_ne_minus r)).2
        ⟨_, rfl, hfits, readDigits?_eq_some_iff.2 ⟨ds, hds, rfl, hhead⟩⟩
    | minus hds hfits =>
      exact readPosition?_minus_eq_some_iff.2
        ⟨_, rfl, hfits, readDigits?_eq_some_iff.2 ⟨_, hds, rfl, hhead⟩⟩

theorem toList_opener : "\x7b\x7bslot:".toList = opener := by decide

theorem toList_closer : "\x7d\x7d".toList = closer := by decide

/-- **The reader takes markers off the front**, and nothing else. -/
theorem read?_eq_some_iff {cs r : List Char} {p : Placeholder} :
    read? cs = some (p, r) ↔ ∃ m, p.Spells m ∧ cs = m ++ r := by
  simp only [read?, toList_opener, toList_closer, Option.bind_eq_bind, Option.bind_eq_some_iff,
    Prod.exists, Option.pure_def, Option.some.injEq, Prod.mk.injEq, dropWord?_eq_some_iff,
    readOwner?_eq_some_iff, readPosition?_eq_some_iff]
  constructor
  · rintro ⟨r₁, rfl, owner, r₂, ⟨ds, ⟨hds, hfits⟩, rfl, -⟩, r₃, rfl, position, r₄,
      ⟨ps, hps, rfl, -⟩, r₅, rfl, rfl, rfl⟩
    refine ⟨_, .intro hds hfits hps, ?_⟩
    simp only [markerOf, List.append_assoc, List.cons_append, List.nil_append]
  · rintro ⟨m, ⟨hds, hfits, hps⟩, rfl⟩
    rename_i ds ps
    refine ⟨ds ++ ':' :: (ps ++ (closer ++ r)), ?_, p.owner, ':' :: (ps ++ (closer ++ r)),
      ⟨ds, ⟨hds, hfits⟩, rfl, ?_⟩, ps ++ (closer ++ r), rfl, p.position, closer ++ r,
      ⟨ps, hps, rfl, ?_⟩, r, rfl, rfl, rfl⟩
    · simp only [markerOf, List.append_assoc, List.cons_append]
    · intro c hc
      obtain rfl := Option.some.inj hc
      rfl
    · intro c hc
      obtain rfl := Option.some.inj hc
      rfl

/-! ### The marker that is printed -/

theorem decimal_toDigits (n : Nat) : Decimal n (Nat.toDigits 10 n) where
  ne_nil := Nat.toDigits_ne_nil
  isDigit _ hc := Nat.isDigit_of_mem_toDigits (by decide) (by decide) hc
  value := Nat.ofDigitChars_toDigits (by decide) (by decide)

/-- The digits of a position that are printed. -/
def positionDigits (z : Int) : List Char :=
  if 0 ≤ z then Nat.toDigits 10 z.toNat else '-' :: Nat.toDigits 10 (-z).toNat

theorem toList_marker (p : Placeholder) :
    p.marker.toList = markerOf (Nat.toDigits 10 p.owner) (positionDigits p.position) := by
  have hposition : (toString p.position).toList = positionDigits p.position := by
    rw [Int.toString_eq_repr, Int.repr_eq_if, positionDigits]
    split <;> simp [Nat.toList_repr]
  have howner : (toString p.owner).toList = Nat.toDigits 10 p.owner := Nat.toList_repr
  rw [marker, String.toList_append, String.toList_append, String.toList_append,
    String.toList_append, howner, hposition, toList_opener, toList_closer, markerOf]
  simp

theorem Signed.signed_positionDigits {z : Int} {ds : List Char} (h : Signed z ds) :
    Signed z (positionDigits z) := by
  cases h with
  | @plain n _ _ hfits =>
    rw [positionDigits, if_pos (by omega), Int.toNat_natCast]
    exact .plain (decimal_toDigits n) hfits
  | @minus n _ _ hfits =>
    rw [positionDigits]
    split
    · have hzero : n = 0 := by omega
      subst hzero
      exact .plain (decimal_toDigits 0) (by decide)
    · rw [Int.neg_neg, Int.toNat_natCast]
      exact .minus (decimal_toDigits n) hfits

/-- **The marker that is printed** for a slot is well-formed, if any is. -/
theorem Spells.spells_marker {p : Placeholder} {m : List Char} (h : p.Spells m) :
    p.Spells p.marker.toList := by
  obtain ⟨-, hfits, hsigned⟩ := h
  rw [toList_marker]
  exact .intro (decimal_toDigits p.owner) hfits hsigned.signed_positionDigits

/-! ### Lengths -/

theorem le_toNat_of_isDigit {c : Char} (h : c.isDigit = true) :
    '0'.toNat ≤ c.toNat ∧ c.toNat ≤ '0'.toNat + 9 := by
  rw [Char.isDigit, Bool.and_eq_true, decide_eq_true_eq, decide_eq_true_eq] at h
  exact h

theorem ofDigitChars_lt {ds : List Char} (h : ∀ c ∈ ds, c.isDigit = true) (init : Nat) :
    Nat.ofDigitChars 10 ds init < (init + 1) * 10 ^ ds.length := by
  induction ds generalizing init with
  | nil => simp
  | cons c cs ih =>
    have hc := le_toNat_of_isDigit (h c List.mem_cons_self)
    rw [Nat.ofDigitChars_cons, List.length_cons, Nat.pow_succ', ← Nat.mul_assoc]
    refine Nat.lt_of_lt_of_le (ih (fun c' hc' ↦ h c' (List.mem_cons_of_mem _ hc')) _) ?_
    exact Nat.mul_le_mul_right _ (by omega)

/-- Digits as many as others that mean the same are the same. -/
theorem eq_of_ofDigitChars_eq {ds ds' : List Char} (h : ∀ c ∈ ds, c.isDigit = true)
    (h' : ∀ c ∈ ds', c.isDigit = true) (hlength : ds.length = ds'.length) {init init' : Nat}
    (hvalue : Nat.ofDigitChars 10 ds init = Nat.ofDigitChars 10 ds' init') :
    init = init' ∧ ds = ds' := by
  induction ds generalizing ds' init init' with
  | nil =>
    obtain rfl := List.length_eq_zero_iff.1 hlength.symm
    exact ⟨hvalue, rfl⟩
  | cons c cs ih =>
    obtain ⟨c', cs', rfl⟩ := List.exists_cons_of_length_eq_add_one hlength.symm
    have hc := le_toNat_of_isDigit (h c List.mem_cons_self)
    have hc' := le_toNat_of_isDigit (h' c' List.mem_cons_self)
    rw [Nat.ofDigitChars_cons, Nat.ofDigitChars_cons] at hvalue
    obtain ⟨hinit, rfl⟩ := ih (fun d hd ↦ h d (List.mem_cons_of_mem _ hd))
      (fun d hd ↦ h' d (List.mem_cons_of_mem _ hd)) (Nat.succ.inj hlength) hvalue
    have hchar : c.toNat = c'.toNat := by omega
    rw [Char.toNat_inj.1 hchar]
    exact ⟨by omega, rfl⟩

/-- Digits other than those that are printed are more. -/
theorem Decimal.eq_or_lt {n : Nat} {ds : List Char} (h : Decimal n ds) :
    ds = Nat.toDigits 10 n ∨ (Nat.toDigits 10 n).length < ds.length := by
  have hbound : n < 10 ^ ds.length := by
    have hlt := ofDigitChars_lt h.isDigit 0
    rwa [h.value, Nat.zero_add, Nat.one_mul] at hlt
  have hle := (Nat.length_toDigits_le_iff (by decide) (List.length_pos_of_ne_nil h.ne_nil)).2 hbound
  refine (Nat.lt_or_eq_of_le hle).symm.imp_left fun heq ↦ ?_
  have hcanonical := decimal_toDigits n
  exact (eq_of_ofDigitChars_eq h.isDigit hcanonical.isDigit heq.symm
    (h.value.trans hcanonical.value.symm)).2

theorem Signed.eq_or_lt {z : Int} {ds : List Char} (h : Signed z ds) :
    ds = positionDigits z ∨ (positionDigits z).length < ds.length := by
  rw [positionDigits]
  cases h with
  | @plain n _ hds _ =>
    rw [if_pos (by omega), Int.toNat_natCast]
    exact hds.eq_or_lt
  | @minus n ds hds _ =>
    have hor := hds.eq_or_lt
    split
    · have hzero : n = 0 := by omega
      subst hzero
      refine .inr ?_
      rw [List.length_cons]
      rcases hor with rfl | hlt
      · exact Nat.lt_succ_self _
      · exact Nat.lt_succ_of_lt hlt
    · rw [Int.neg_neg, Int.toNat_natCast]
      exact hor.imp (congrArg _) Nat.succ_lt_succ

/-- **Markers other than the one that is printed** are longer. -/
theorem Spells.eq_marker_or_lt {p : Placeholder} {m : List Char} (h : p.Spells m) :
    m = p.marker.toList ∨ p.marker.toList.length < m.length := by
  obtain ⟨hds, -, hps⟩ := h
  rw [toList_marker]
  rcases hds.eq_or_lt with rfl | howner
  · rcases hps.eq_or_lt with rfl | hposition
    · exact .inl rfl
    · refine .inr ?_
      simpa [markerOf] using hposition
  · refine .inr ?_
    have hle : (positionDigits p.position).length ≤ _ := hps.eq_or_lt.elim
      (fun heq ↦ Nat.le_of_eq (congrArg _ heq.symm)) Nat.le_of_lt
    simp only [markerOf, List.length_append, List.length_cons]
    omega

/-! ### Where a marker begins -/

theorem Signed.ne_brace {z : Int} {ds : List Char} (h : Signed z ds) : '\x7b' ∉ ds := by
  cases h with
  | plain hds _ => exact fun hmem ↦ absurd (hds.isDigit _ hmem) (by decide)
  | minus hds _ =>
    intro hmem
    rcases List.mem_cons.1 hmem with heq | hmem
    · exact absurd heq (by decide)
    · exact absurd (hds.isDigit _ hmem) (by decide)

/-- There is no opening brace in a marker but the two that it begins with. -/
theorem Spells.exists_tail {p : Placeholder} {m : List Char} (h : p.Spells m) :
    ∃ tail, m = '\x7b' :: '\x7b' :: 's' :: tail ∧ '\x7b' ∉ tail := by
  obtain ⟨hds, -, hps⟩ := h
  rename_i ds ps
  refine ⟨['l', 'o', 't', ':'] ++ (ds ++ ':' :: (ps ++ closer)), rfl, fun hmem ↦ ?_⟩
  have hnot : '\x7b' ∉ ds := fun hmem ↦ absurd (hds.isDigit _ hmem) (by decide)
  simp [closer, hnot, hps.ne_brace] at hmem

/-- **Markers do not overlap.** One that begins in a text before another one ends there too. -/
theorem Spells.exists_append_of_append_eq {p q : Placeholder} {m m' a b r : List Char}
    (hm : p.Spells m) (hm' : q.Spells m') (ha : a ≠ []) (heq : a ++ (m ++ b) = m' ++ r) :
    ∃ a', a = m' ++ a' ∧ r = a' ++ (m ++ b) := by
  obtain ⟨tail, rfl, -⟩ := hm.exists_tail
  obtain ⟨tail', rfl, hnot⟩ := hm'.exists_tail
  rcases List.append_eq_append_iff.1 heq with ⟨u, hu, hr⟩ | ⟨u, hu, hr⟩
  · cases u with
    | nil => exact ⟨[], by simpa using hu.symm, by simpa using hr.symm⟩
    | cons c u =>
      -- the second marker would begin inside the first one, which has no brace but the first two
      obtain ⟨rfl, hrest⟩ := List.cons.inj hr
      obtain ⟨x, a, rfl⟩ := List.exists_cons_of_ne_nil ha
      obtain ⟨-, hu⟩ := List.cons.inj hu
      cases a with
      | nil =>
        obtain ⟨-, rfl⟩ := List.cons.inj hu
        exact absurd (List.cons.inj hrest).1 (by decide)
      | cons y a =>
        have hmem : '\x7b' ∈ 's' :: tail' := by
          rw [(List.cons.inj hu).2]
          exact List.mem_append_right _ List.mem_cons_self
        exact absurd hmem (by simp [hnot])
  · exact ⟨u, hu, hr⟩

end Placeholder

end ViewCompiler
