import Mathlib.Data.List.Chain
import ViewCompiler.Proofs.Template.Markers
import ViewCompiler.Proofs.Template.Pieces

/-!
# Cutting a text and printing the pieces

A text is cut at its markers into runs of characters and slots. Printing puts a run back as it is
and writes the marker of a slot as the program writes it. `Fragment.ofText_lossless` says what of a
text survives: everything, exactly if its markers are all written as the program writes them; and in
any case the cuts, which are the same once more after printing.

Everything rests on `Fragment.segments_append_marker`: a text with a marker anywhere in it is cut
there, whatever stands before and after the marker. This is so because no two markers overlap, and
it leaves nothing to prove about texts that are nearly markers, or that only become markers where
two pieces meet.

Proofs about texts follow `Fragment.cut_induction`: a text that is not empty goes on with a marker,
or with a character that begins none.
-/

namespace ViewCompiler

namespace Fragment

open Placeholder

/-- A text with no marker in it. -/
def Unmarked (cs : List Char) : Prop := ∀ p m, Spells p m → ¬m <:+: cs

/-- What a segment is printed as. -/
def Segment.printed : Segment → List Char
  | text cs => cs
  | slot place => place.marker.toList

/-! ### One cut -/

theorem cut_induction {motive : List Char → Prop} (nil : motive [])
    (char : ∀ c r, read? (c :: r) = none → motive r → motive (c :: r))
    (marker : ∀ p m r, Spells p m → motive r → motive (m ++ r)) (cs : List Char) : motive cs := by
  induction hlength : cs.length using Nat.strong_induction_on generalizing cs with
  | h n ih =>
    subst hlength
    cases cs with
    | nil => exact nil
    | cons c r =>
      cases hread : read? (c :: r) with
      | none => exact char c r hread (ih r.length (Nat.lt_succ_self _) r rfl)
      | some found =>
        obtain ⟨p, r'⟩ := found
        obtain ⟨m, hm, heq⟩ := read?_eq_some_iff.1 hread
        rw [heq]
        exact marker p m r' hm (ih r'.length (length_read? hread) r' rfl)

theorem segments_nil : segments [] = [] := by
  rw [segments.eq_def]

theorem segments_cons {c : Char} {r : List Char} (hread : read? (c :: r) = none) :
    segments (c :: r) = consChar c (segments r) := by
  rw [segments.eq_def]
  dsimp only
  rw [hread]

theorem segments_marker {p : Placeholder} {m : List Char} (hm : p.Spells m) (r : List Char) :
    segments (m ++ r) = .slot p :: segments r := by
  have hread : read? (m ++ r) = some (p, r) := read?_eq_some_iff.2 ⟨m, hm, rfl⟩
  obtain ⟨tail, rfl, -⟩ := hm.exists_tail
  have hlt := length_read? hread
  rw [segments.eq_def]
  dsimp only [List.cons_append]
  dsimp only [List.cons_append] at hread hlt
  rw [hread]
  dsimp only
  rw [dif_pos (Nat.le_of_lt_succ hlt)]

/-- Characters that begin no marker, with what comes after them, begin none alone. -/
theorem read?_eq_none_of_append {cs r : List Char} (h : read? (cs ++ r) = none) :
    read? cs = none := by
  cases hread : read? cs with
  | none => rfl
  | some found =>
    obtain ⟨p, r'⟩ := found
    obtain ⟨m, hm, rfl⟩ := read?_eq_some_iff.1 hread
    rw [read?_eq_some_iff.2 ⟨m, hm, List.append_assoc m r' r⟩] at h
    exact absurd h (by simp)

theorem consChar_append_slot (c : Char) (ss : List Segment) (p : Placeholder) (r : List Segment) :
    consChar c (ss ++ .slot p :: r) = consChar c ss ++ .slot p :: r := by
  rcases ss with - | ⟨- | -, ss⟩ <;> rfl

/-- **A text is cut at each of its markers.** -/
theorem segments_append_marker {p : Placeholder} {m : List Char} (hm : p.Spells m)
    (a b : List Char) : segments (a ++ (m ++ b)) = segments a ++ .slot p :: segments b := by
  induction hlength : a.length using Nat.strong_induction_on generalizing a with
  | h n ih =>
    subst hlength
    cases a with
    | nil =>
      rw [List.nil_append, segments_marker hm, segments_nil, List.nil_append]
    | cons c a =>
      cases hread : read? (c :: a ++ (m ++ b)) with
      | none =>
        have hcons := segments_cons (c := c) (r := a ++ (m ++ b)) hread
        rw [List.cons_append, hcons, segments_cons (read?_eq_none_of_append hread),
          ih a.length (Nat.lt_succ_self _) a rfl, consChar_append_slot]
      | some found =>
        obtain ⟨q, r⟩ := found
        obtain ⟨m', hm', heq⟩ := read?_eq_some_iff.1 hread
        obtain ⟨a', ha, rfl⟩ := hm.exists_append_of_append_eq hm' (List.cons_ne_nil c a) heq
        have hlt : a'.length < (c :: a).length :=
          length_read? (read?_eq_some_iff.2 ⟨m', hm', ha⟩)
        rw [heq, ha, segments_marker hm', segments_marker hm', ih a'.length hlt a' rfl,
          List.cons_append]

/-! ### All cuts -/

/-- Segments that could have been cut from a text: runs without markers, and never two runs in a
row. -/
structure Tidy (ss : List Segment) : Prop where
  runs : ∀ cs, .text cs ∈ ss → cs ≠ [] ∧ Unmarked cs
  slots : ∀ p, .slot p ∈ ss → ∃ m, Spells p m
  apart : ss.IsChain fun s s' ↦ s.isText = false ∨ s'.isText = false

theorem unmarked_nil : Unmarked [] := fun _ _ hm hwithin ↦ by
  obtain ⟨tail, rfl, -⟩ := hm.exists_tail
  exact absurd (List.infix_nil.1 hwithin) (List.cons_ne_nil _ _)

theorem unmarked_cons {c : Char} {r ds : List Char} (hread : read? (c :: r) = none)
    (hds : Unmarked ds) (hstart : ds <+: r) : Unmarked (c :: ds) := fun p m hm hwithin ↦ by
  rcases List.infix_cons_iff.1 hwithin with hfront | hinner
  · obtain ⟨r', hr'⟩ := hfront.trans ((List.cons_prefix_cons).2 ⟨rfl, hstart⟩)
    rw [read?_eq_some_iff.2 ⟨m, hm, hr'.symm⟩] at hread
    exact absurd hread (by simp)
  · exact hds p m hm hinner

theorem Unmarked.of_cons {c : Char} {cs : List Char} (h : Unmarked (c :: cs)) : Unmarked cs :=
  fun p m hm hwithin ↦ h p m hm (List.infix_cons_iff.2 (.inr hwithin))

/-- A text without markers is one run. -/
theorem segments_of_unmarked {cs : List Char} (hne : cs ≠ []) (h : Unmarked cs) :
    segments cs = [.text cs] := by
  induction cs with
  | nil => exact absurd rfl hne
  | cons c r ih =>
    have hread : read? (c :: r) = none := by
      cases hread : read? (c :: r) with
      | none => rfl
      | some found =>
        obtain ⟨m, hm, heq⟩ := read?_eq_some_iff.1 hread
        exact absurd (heq ▸ (List.prefix_append m _).isInfix) (h _ m hm)
    rw [segments_cons hread]
    cases r with
    | nil => rw [segments_nil]; rfl
    | cons c' r => rw [ih (List.cons_ne_nil c' r) h.of_cons]; rfl

theorem Tidy.slot_cons {ss : List Segment} (h : Tidy ss) {p : Placeholder} {m : List Char}
    (hm : p.Spells m) : Tidy (.slot p :: ss) where
  runs cs hcs := h.runs cs ((List.mem_cons.1 hcs).resolve_left Segment.noConfusion)
  slots q hq := by
    rcases List.mem_cons.1 hq with heq | hq
    · obtain rfl := Segment.slot.inj heq
      exact ⟨m, hm⟩
    · exact h.slots q hq
  apart := List.isChain_cons.2 ⟨fun _ _ ↦ .inl rfl, h.apart⟩

theorem Tidy.text_cons {ss : List Segment} (h : Tidy ss)
    (hhead : ∀ s ∈ ss.head?, s.isText = false) {cs : List Char} (hne : cs ≠ [])
    (hcs : Unmarked cs) : Tidy (.text cs :: ss) where
  runs ds hds := by
    rcases List.mem_cons.1 hds with heq | hds
    · obtain rfl := Segment.text.inj heq
      exact ⟨hne, hcs⟩
    · exact h.runs ds hds
  slots p hp := h.slots p ((List.mem_cons.1 hp).resolve_left Segment.noConfusion)
  apart := List.isChain_cons.2 ⟨fun s hs ↦ .inr (hhead s hs), h.apart⟩

theorem Tidy.of_cons {s : Segment} {ss : List Segment} (h : Tidy (s :: ss)) : Tidy ss where
  runs cs hcs := h.runs cs (List.mem_cons_of_mem _ hcs)
  slots p hp := h.slots p (List.mem_cons_of_mem _ hp)
  apart := (List.isChain_cons.1 h.apart).2

/-- **The segments of a text** are tidy, and a run at the front is what the text begins with. -/
theorem tidy_segments (cs : List Char) : Tidy (segments cs) ∧
    ∀ ds ss, segments cs = .text ds :: ss → ds <+: cs := by
  induction cs using cut_induction with
  | nil =>
    rw [segments_nil]
    exact ⟨⟨by simp, by simp, .nil⟩, by simp⟩
  | char c r hread ih =>
    obtain ⟨htidy, hfront⟩ := ih
    rw [segments_cons hread]
    match hsegments : segments r with
    | [] =>
      rw [hsegments] at htidy
      refine ⟨htidy.text_cons (by simp) (List.cons_ne_nil c [])
        (unmarked_cons hread unmarked_nil List.nil_prefix), fun ds ss heq ↦ ?_⟩
      obtain ⟨hds, -⟩ := List.cons.inj heq
      obtain rfl := Segment.text.inj hds
      exact List.cons_prefix_cons.2 ⟨rfl, List.nil_prefix⟩
    | .text ds :: ss =>
      rw [hsegments] at htidy
      have hstart := hfront ds ss hsegments
      refine ⟨htidy.of_cons.text_cons (fun s hs ↦ ?_) (List.cons_ne_nil c ds)
        (unmarked_cons hread (htidy.runs ds List.mem_cons_self).2 hstart), fun ds' ss' heq ↦ ?_⟩
      · exact ((List.isChain_cons.1 htidy.apart).1 s hs).resolve_left (by simp [Segment.isText])
      · obtain ⟨hds, -⟩ := List.cons.inj heq
        obtain rfl := Segment.text.inj hds
        exact List.cons_prefix_cons.2 ⟨rfl, hstart⟩
    | .slot p :: ss =>
      rw [hsegments] at htidy
      refine ⟨htidy.text_cons (fun s hs ↦ ?_) (List.cons_ne_nil c [])
        (unmarked_cons hread unmarked_nil List.nil_prefix), fun ds ss heq ↦ ?_⟩
      · obtain rfl := Option.some.inj hs
        rfl
      · obtain ⟨hds, -⟩ := List.cons.inj heq
        obtain rfl := Segment.text.inj hds
        exact List.cons_prefix_cons.2 ⟨rfl, List.nil_prefix⟩
  | marker p m r hm ih =>
    rw [segments_marker hm]
    exact ⟨ih.1.slot_cons hm, by simp⟩

/-! ### Printing -/

/-- **Tidy segments are cut again** as they are. -/
theorem segments_flatMap_printed {ss : List Segment} (h : Tidy ss) :
    segments (ss.flatMap Segment.printed) = ss := by
  match ss with
  | [] => exact segments_nil
  | .slot p :: ss =>
    obtain ⟨m, hm⟩ := h.slots p List.mem_cons_self
    rw [List.flatMap_cons, Segment.printed, segments_marker hm.spells_marker,
      segments_flatMap_printed h.of_cons]
  | [.text cs] =>
    obtain ⟨hne, hcs⟩ := h.runs cs List.mem_cons_self
    rw [List.flatMap_cons, List.flatMap_nil, List.append_nil, Segment.printed,
      segments_of_unmarked hne hcs]
  | .text cs :: .slot p :: ss =>
    obtain ⟨hne, hcs⟩ := h.runs cs List.mem_cons_self
    obtain ⟨m, hm⟩ := h.slots p (List.mem_cons_of_mem _ List.mem_cons_self)
    rw [List.flatMap_cons, List.flatMap_cons, Segment.printed, Segment.printed,
      segments_append_marker hm.spells_marker, segments_of_unmarked hne hcs,
      segments_flatMap_printed h.of_cons.of_cons, List.singleton_append]
  | .text cs :: .text ds :: ss =>
    exact absurd ((List.isChain_cons_cons.1 h.apart).1) (by simp [Segment.isText])

theorem flatMap_printed_consChar (c : Char) (ss : List Segment) :
    (consChar c ss).flatMap Segment.printed = c :: ss.flatMap Segment.printed := by
  rcases ss with - | ⟨- | -, ss⟩ <;> rfl

theorem length_flatMap_printed_le (cs : List Char) :
    ((segments cs).flatMap Segment.printed).length ≤ cs.length := by
  induction cs using cut_induction with
  | nil => rw [segments_nil]; exact Nat.le_refl _
  | char c r hread ih =>
    rw [segments_cons hread, flatMap_printed_consChar]
    exact Nat.succ_le_succ ih
  | marker p m r hm ih =>
    have hle : p.marker.toList.length ≤ m.length := hm.eq_marker_or_lt.elim
      (fun heq ↦ Nat.le_of_eq (congrArg _ heq.symm)) Nat.le_of_lt
    rw [segments_marker hm, List.flatMap_cons, List.length_append, List.length_append]
    exact Nat.add_le_add hle ih

/-- **A text is printed as it is** exactly if its markers are the printed ones. -/
theorem flatMap_printed_segments_eq_iff (cs : List Char) :
    (segments cs).flatMap Segment.printed = cs ↔
      ∀ p m, Spells p m → m <:+: cs → m = p.marker.toList := by
  constructor
  · rintro heq p m hm ⟨a, b, rfl⟩
    rw [List.append_assoc] at heq
    rw [segments_append_marker hm, List.flatMap_append, List.flatMap_cons] at heq
    have hlength := congrArg List.length heq
    have ha := length_flatMap_printed_le a
    have hb := length_flatMap_printed_le b
    simp only [List.length_append, Segment.printed] at hlength
    exact hm.eq_marker_or_lt.resolve_right fun hlt ↦ by omega
  · intro h
    induction cs using cut_induction with
    | nil => rw [segments_nil]; rfl
    | char c r hread ih =>
      rw [segments_cons hread, flatMap_printed_consChar, ih fun p m hm hwithin ↦
        h p m hm (List.infix_cons_iff.2 (.inr hwithin))]
    | marker p m r hm ih =>
      rw [segments_marker hm, List.flatMap_cons, Segment.printed,
        ← h p m hm (List.prefix_append m r).isInfix, ih fun q m' hm' hwithin ↦
          h q m' hm' (hwithin.trans (List.suffix_append m r).isInfix)]

end Fragment

/-! ### Fragments of texts -/

/-- What a piece of a text is printed as. -/
def Piece.printed : Piece → String
  | slot place => place.marker
  | raw text => text
  | _ => ""

namespace Fragment

/-- The text of a fragment that was cut from one. -/
def printed (f : Fragment) : String := String.join (f.pieces.map Piece.printed)

def Segment.piece : Segment → Piece
  | text cs => .raw (String.ofList cs)
  | slot place => .slot place

theorem ofText_eq (text : String) : ofText text = ⟨(segments text.toList).map Segment.piece⟩ := by
  rw [ofText]
  congr 2

theorem toList_printed_ofText (text : String) :
    (ofText text).printed.toList = (segments text.toList).flatMap Segment.printed := by
  rw [ofText_eq, printed, String.toList_join, List.flatMap_map, List.flatMap_map]
  refine List.flatMap_congr fun s _ ↦ ?_
  cases s with
  | text cs => exact String.toList_ofList
  | slot place => rfl

/-- **A text that is cut at its markers** comes back when the pieces are printed, exactly if all
markers in it are written as the program writes them. The pieces are slots and texts, none of these
is empty or has a marker in it or comes after another one, and printing and cutting once more yields
the same pieces. -/
theorem ofText_lossless (text : String) :
    (∀ piece ∈ (ofText text).pieces, (∃ place, piece = .slot place) ∨
        ∃ run, piece = .raw run ∧ run ≠ "" ∧ Unmarked run.toList) ∧
      ((ofText text).pieces.IsChain fun x y ↦ x.text? = none ∨ y.text? = none) ∧
      ((ofText text).printed = text ↔
        ∀ p m, Placeholder.Spells p m → m <:+: text.toList → m = p.marker.toList) ∧
      ofText (ofText text).printed = ofText text := by
  obtain ⟨htidy, -⟩ := tidy_segments text.toList
  refine ⟨fun piece hpiece ↦ ?_, ?_, ?_, ?_⟩
  · rw [ofText_eq] at hpiece
    obtain ⟨s, hs, rfl⟩ := List.mem_map.1 hpiece
    cases s with
    | text cs =>
      obtain ⟨hne, hcs⟩ := htidy.runs cs hs
      refine .inr ⟨_, rfl, fun hempty ↦ hne (String.ofList_eq_empty_iff.1 hempty), ?_⟩
      rwa [String.toList_ofList]
    | slot place => exact .inl ⟨place, rfl⟩
  · rw [ofText_eq, List.isChain_map]
    refine htidy.apart.imp fun s s' h ↦ ?_
    cases s <;> cases s' <;> simp_all [Segment.isText, Segment.piece, Piece.text?]
  · rw [← flatMap_printed_segments_eq_iff, ← toList_printed_ofText, String.toList_inj]
  · rw [ofText_eq (ofText text).printed, toList_printed_ofText, segments_flatMap_printed htidy,
      ofText_eq]

end Fragment

end ViewCompiler
