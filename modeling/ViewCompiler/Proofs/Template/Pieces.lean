import ViewCompiler.Proofs.Layout.LayoutForest
import ViewCompiler.Proofs.Template.Resolution

/-!
# Pieces of an outline

What can be read off the pieces that an outline expands to: which nodes are in it
(`Outline.nodes_pieces`), which texts stand instead of replaced ones (`Outline.texts_pieces`), and,
if none is replaced, how the nodes are in each other (`Outline.elements?_pieces`) and what is
directly inside each (`Outline.elementsIn_placed`).

`Piece.elements?` reads pieces as elements, with a stack of those that are open. It fails on pieces
that do not open and close in pairs.
-/

namespace ViewCompiler

open NodeTree

namespace Piece

/-- The node that begins with a piece. -/
def node? : Piece → Option NodeId
  | opening i => some i
  | selfClosing i => some i
  | _ => none

def text? : Piece → Option String
  | raw text => some text
  | _ => none

/-- Reads pieces as elements in each other. Every element is listed with those around it, the
nearest one first; `around` are the elements that are open at the start. -/
def elements? (around : List NodeId) : List Piece → Option (List (NodeId × List NodeId))
  | [] => if around.isEmpty then some [] else none
  | opening i :: r => (elements? (i :: around) r).map ((i, around) :: ·)
  | selfClosing i :: r => (elements? around r).map ((i, around) :: ·)
  | closing i :: r => if around.head? = some i then elements? around.tail r else none
  | _ :: _ => none

/-- The elements directly inside a node, in order. -/
def elementsIn (elements : List (NodeId × List NodeId)) (n : NodeId) : List NodeId :=
  (elements.filter fun e ↦ e.2.head? = some n).map Prod.fst

theorem elementsIn_cons (e : NodeId × List NodeId) (r : List (NodeId × List NodeId)) (n : NodeId) :
    elementsIn (e :: r) n = (if e.2.head? = some n then [e.1] else []) ++ elementsIn r n := by
  rw [elementsIn, List.filter_cons]
  split <;> simp_all [elementsIn]

theorem elementsIn_flatMap {α : Type} (f : α → List (NodeId × List NodeId)) (l : List α)
    (n : NodeId) : elementsIn (l.flatMap f) n = l.flatMap fun a ↦ elementsIn (f a) n := by
  rw [elementsIn, List.filter_flatMap, List.map_flatMap]
  rfl

end Piece

/-! ### Texts without markers -/

namespace Placeholder

theorem length_dropWord? {w cs r : List Char} (h : dropWord? w cs = some r) :
    cs.length = w.length + r.length := by
  induction w generalizing cs with
  | nil =>
    obtain rfl := Option.some.inj h
    rw [List.length_nil, Nat.zero_add]
  | cons c w ih =>
    cases cs with
    | nil => exact absurd h (by simp [dropWord?])
    | cons c' cs =>
      rw [dropWord?] at h
      split at h
      · rw [List.length_cons, List.length_cons, ih h]
        omega
      · exact absurd h (by simp)

theorem length_readDigits? {cs r : List Char} {n : Nat} (h : readDigits? cs = some (n, r)) :
    r.length ≤ cs.length := by
  rw [readDigits?] at h
  split at h
  · exact absurd h (by simp)
  · rw [← (Prod.mk.inj (Option.some.inj h)).2]
    exact (List.dropWhile_sublist _).length_le

theorem length_readOwner? {cs r : List Char} {n : NodeId} (h : readOwner? cs = some (n, r)) :
    r.length ≤ cs.length := by
  obtain ⟨⟨m, r'⟩, hdigits, hrest⟩ := Option.bind_eq_some_iff.1 h
  dsimp only at hrest
  split at hrest
  · rw [← (Prod.mk.inj (Option.some.inj hrest)).2]
    exact length_readDigits? hdigits
  · exact absurd hrest (by simp)

theorem length_readPosition? {cs r : List Char} {n : Int} (h : readPosition? cs = some (n, r)) :
    r.length ≤ cs.length := by
  rw [readPosition?.eq_def] at h
  split at h
  all_goals
    obtain ⟨⟨m, r'⟩, hdigits, hrest⟩ := Option.bind_eq_some_iff.1 h
    have hle := length_readDigits? hdigits
    dsimp only at hrest
    split at hrest
    · rw [← (Prod.mk.inj (Option.some.inj hrest)).2]
      exact Nat.le_trans hle (by simp)
    · exact absurd hrest (by simp)

/-- A marker takes something off the front. -/
theorem length_read? {cs r : List Char} {place : Placeholder} (h : read? cs = some (place, r)) :
    r.length < cs.length := by
  obtain ⟨r₁, h₁, h⟩ := Option.bind_eq_some_iff.1 h
  obtain ⟨⟨owner, r₂⟩, h₂, h⟩ := Option.bind_eq_some_iff.1 h
  obtain ⟨r₃, h₃, h⟩ := Option.bind_eq_some_iff.1 h
  obtain ⟨⟨position, r₄⟩, h₄, h⟩ := Option.bind_eq_some_iff.1 h
  obtain ⟨r₅, h₅, h⟩ := Option.bind_eq_some_iff.1 h
  obtain ⟨-, rfl⟩ := Prod.mk.inj (Option.some.inj h)
  have hword := length_dropWord? h₁
  have hcolon := length_dropWord? h₃
  have hend := length_dropWord? h₅
  have howner := length_readOwner? h₂
  have hposition := length_readPosition? h₄
  have hpositive : 0 < "\x7b\x7bslot:".toList.length := by decide
  omega

end Placeholder

namespace Fragment

/-- Whether a part of a text is no marker. -/
def Segment.isText : Segment → Bool
  | text _ => true
  | slot _ => false

theorem isText_consChar {c : Char} {l : List Segment} (h : ∀ s ∈ consChar c l, s.isText = true) :
    ∀ s ∈ l, s.isText = true := by
  cases l with
  | nil => exact fun s hs ↦ absurd hs List.not_mem_nil
  | cons s r =>
    cases s with
    | text cs =>
      intro s hs
      rcases List.mem_cons.1 hs with rfl | hs
      · rfl
      · exact h s (List.mem_cons_of_mem _ hs)
    | slot place => exact fun s hs ↦ h s (List.mem_cons_of_mem _ hs)

/-- **A text without markers is one segment.** -/
theorem segments_eq {cs : List Char} (h : ∀ s ∈ segments cs, s.isText = true) :
    segments cs = if cs.isEmpty then [] else [.text cs] := by
  induction cs with
  | nil => rw [segments.eq_def]; rfl
  | cons c r ih =>
    rw [segments.eq_def] at h ⊢
    dsimp only at h ⊢
    split at h
    · rw [ih (isText_consChar h)]
      cases r <;> rfl
    · rename_i place r' hread
      have hlt := Placeholder.length_read? hread
      rw [dif_pos (by rw [List.length_cons] at hlt; omega)] at h
      exact absurd (h _ List.mem_cons_self) (by simp [Segment.isText])

theorem pieces_ofText {text : String} (h : (ofText text).slots = []) :
    (ofText text).pieces = if text = "" then [] else [.raw text] := by
  have htexts : ∀ s ∈ segments text.toList, s.isText = true := fun s hs ↦ by
    cases s with
    | text cs => rfl
    | slot place =>
      rw [slots, List.filterMap_eq_nil_iff] at h
      exact absurd (h _ (List.mem_map.2 ⟨_, hs, rfl⟩)) (by simp)
  rw [ofText, segments_eq htexts]
  by_cases hempty : text = ""
  · subst hempty
    rfl
  · have hne : text.toList.isEmpty = false := by
      simpa [List.isEmpty_eq_false_iff] using hempty
    simp [hne, hempty]

end Fragment

/-! ### Outlines -/

namespace Outline

/-- The nodes of an outline, parents first, each with those around it. -/
def placed (around : List NodeId) : Outline → List (NodeId × List NodeId)
  | node i below => (i, around) :: below.flatMap (placed (i :: around))

theorem map_fst_placed (o : Outline) (around : List NodeId) :
    (o.placed around).map Prod.fst = o.ids := by
  induction o using Outline.induction generalizing around with
  | h i below ih =>
    rw [placed, ids_node, List.map_cons, List.map_flatMap]
    exact congrArg (List.cons i) (List.flatMap_congr fun b hb ↦ ih b hb (i :: around))

/-- **The nodes around a node** are what the links lead to that fit an outline. -/
theorem upward_of_mem_placed {children : NodeId → List NodeId} {link : NodeId → Option NodeId}
    (hlink : ∀ p c, c ∈ children p → link c = some p) {o : Outline} (ho : o.Follows children)
    {around : List NodeId} (hup : Upward link o.id (o.id :: around)) {x : NodeId}
    {above : List NodeId} (hx : (x, above) ∈ o.placed around) : Upward link x (x :: above) := by
  induction o using Outline.induction generalizing around with
  | h i below ih =>
    obtain ⟨hids, hbelow⟩ := follows_node.1 ho
    rw [placed, List.mem_cons, List.mem_flatMap] at hx
    rcases hx with heq | ⟨b, hb, hx⟩
    · obtain ⟨rfl, rfl⟩ := Prod.mk.inj heq
      exact hup
    · exact ih b hb (hbelow b hb) (.step (hlink i b.id (hids ▸ List.mem_map_of_mem hb)) hup) hx

/-- A node is in one of several outlines without a common number. -/
theorem flatMap_ite_mem {α : Type} {os : List Outline} (hnodup : (os.flatMap ids).Nodup)
    (n : NodeId) (l : List α) :
    (os.flatMap fun o ↦ if n ∈ o.ids then l else []) = if n ∈ os.flatMap ids then l else [] := by
  induction os with
  | nil => rfl
  | cons o r ih =>
    rw [List.flatMap_cons, List.nodup_append'] at hnodup
    obtain ⟨-, hr, hdisjoint⟩ := hnodup
    rw [List.flatMap_cons, List.flatMap_cons, ih hr]
    by_cases hn : n ∈ o.ids
    · have hnot : n ∉ r.flatMap ids := fun hmem ↦ hdisjoint hn hmem
      rw [if_pos hn, if_neg hnot, if_pos (List.mem_append_left _ hn), List.append_nil]
    · simp only [hn, if_false, List.nil_append, List.mem_append, false_or]

/-- **The elements directly inside a node** of an outline are what the outline unfolds, and the
outermost one is directly inside the nearest node around. -/
theorem elementsIn_placed {children : NodeId → List NodeId} {o : Outline}
    (ho : o.Follows children) (hnodup : o.ids.Nodup) (around : List NodeId) (n : NodeId) :
    Piece.elementsIn (o.placed around) n =
      (if around.head? = some n then [o.id] else []) ++
        if n ∈ o.ids then children n else [] := by
  induction o using Outline.induction generalizing around with
  | h i below ih =>
    obtain ⟨hids, hbelow⟩ := follows_node.1 ho
    rw [ids_node, List.nodup_cons] at hnodup
    obtain ⟨hi, hrest⟩ := hnodup
    have hinner : ∀ b ∈ below, Piece.elementsIn (b.placed (i :: around)) n =
        (if i = n then [b.id] else []) ++ if n ∈ b.ids then children n else [] := fun b hb ↦ by
      rw [ih b hb (hbelow b hb) ((List.nodup_flatMap.1 hrest).1 b hb)]
      simp
    rw [placed, Piece.elementsIn_cons, Piece.elementsIn_flatMap, List.flatMap_congr hinner,
      ids_node]
    refine congrArg _ ?_
    by_cases hn : i = n
    · subst hn
      have hnot : ∀ b ∈ below, i ∉ b.ids := fun b hb hmem ↦ hi (List.mem_flatMap.2 ⟨b, hb, hmem⟩)
      rw [if_pos List.mem_cons_self, ← hids, List.map_eq_flatMap]
      refine List.flatMap_congr fun b hb ↦ ?_
      rw [if_pos rfl, if_neg (hnot b hb), List.append_nil]
    · simp only [hn, if_false, List.nil_append]
      rw [flatMap_ite_mem hrest]
      simp [Ne.symm hn]

/-- The same of several outlines. -/
theorem elementsIn_flatMap_placed {children : NodeId → List NodeId} {os : List Outline}
    (hos : ∀ o ∈ os, o.Follows children) (hnodup : (os.flatMap ids).Nodup) {n : NodeId}
    (hn : n ∈ os.flatMap ids) :
    Piece.elementsIn (os.flatMap (placed [])) n = children n := by
  have heach : ∀ o ∈ os, Piece.elementsIn (o.placed []) n =
      if n ∈ o.ids then children n else [] := fun o ho ↦
    (elementsIn_placed (hos o ho) ((List.nodup_flatMap.1 hnodup).1 o ho) [] n).trans
      (List.nil_append _)
  rw [Piece.elementsIn_flatMap, List.flatMap_congr heach, flatMap_ite_mem hnodup, if_pos hn]

variable {t : NodeTree} {texts : SortedMap NodeId String}

/-- A replaced node has nothing inside. -/
theorem below_eq_nil (htexts : Textual t texts) {i : NodeId} {below : List Outline}
    (ho : (node i below).Follows t.order) {text : String} (hi : texts.get? i = some text) :
    below = [] := by
  obtain ⟨hids, -⟩ := follows_node.1 ho
  rw [htexts.empty i text hi] at hids
  exact List.map_eq_nil_iff.1 hids

/-- The piece that a node begins with, or its text if it is replaced. -/
def heads (texts : SortedMap NodeId String) (i : NodeId) : List Piece :=
  match texts.get? i with
  | some text => if text = "" then [] else [.raw text]
  | none => [.opening i]

/-- What is read off pieces is read off those that nodes begin with, where leaves do not matter. -/
theorem filterMap_pieces {β : Type} {f : Piece → Option β}
    (hself : ∀ i, f (.selfClosing i) = f (.opening i)) (hclosing : ∀ i, f (.closing i) = none)
    (htexts : Textual t texts) {o : Outline} (ho : o.Follows t.order) :
    (o.pieces texts).filterMap f = o.ids.flatMap fun i ↦ (heads texts i).filterMap f := by
  induction o using Outline.induction with
  | h i below ih =>
    rw [ids_node, List.flatMap_cons, heads, pieces]
    cases hi : texts.get? i with
    | some text =>
      dsimp only
      rw [below_eq_nil htexts ho hi, Fragment.pieces_ofText (htexts.slots i text hi)]
      simp
    | none =>
      obtain ⟨-, hbelow⟩ := follows_node.1 ho
      have hinner : (below.flatMap (pieces texts)).filterMap f =
          (below.flatMap ids).flatMap fun i ↦ (heads texts i).filterMap f := by
        rw [List.filterMap_flatMap, List.flatMap_assoc]
        exact List.flatMap_congr fun b hb ↦ ih b hb (hbelow b hb)
      dsimp only
      cases below with
      | nil => simp [List.filterMap_cons, hself]
      | cons b r =>
        rw [List.isEmpty_cons, if_neg Bool.false_ne_true, List.filterMap_append,
          List.filterMap_cons, hinner]
        cases hf : f (.opening i) <;> simp [hclosing, hf]

/-- **The nodes in an outline** that are not replaced. -/
theorem nodes_pieces (htexts : Textual t texts) {o : Outline} (ho : o.Follows t.order) :
    (o.pieces texts).filterMap Piece.node? = o.ids.filter fun i ↦ (texts.get? i).isNone := by
  rw [filterMap_pieces (fun _ ↦ rfl) (fun _ ↦ rfl) htexts ho]
  induction o.ids with
  | nil => rfl
  | cons i r ih =>
    rw [List.flatMap_cons, ih, List.filter_cons, heads]
    cases texts.get? i with
    | some text => by_cases h : text = "" <;> simp [h, Piece.node?]
    | none => rfl

/-- **The texts in an outline**, as far as they are not empty. -/
theorem texts_pieces (htexts : Textual t texts) {o : Outline} (ho : o.Follows t.order) :
    (o.pieces texts).filterMap Piece.text? =
      (o.ids.filterMap texts.get?).filter fun text ↦ text ≠ "" := by
  rw [filterMap_pieces (fun _ ↦ rfl) (fun _ ↦ rfl) htexts ho]
  induction o.ids with
  | nil => rfl
  | cons i r ih =>
    rw [List.flatMap_cons, ih, List.filterMap_cons, heads]
    cases texts.get? i with
    | some text => by_cases h : text = "" <;> simp [h, Piece.text?]
    | none => rfl

/-- **Pieces without texts are balanced**, and are read as the nodes of the outline in each other.
-/
theorem elements?_pieces (hnone : ∀ i, texts.get? i = none) (o : Outline) (around : List NodeId)
    (rest : List Piece) :
    Piece.elements? around (o.pieces texts ++ rest) =
      (Piece.elements? around rest).map (o.placed around ++ ·) := by
  induction o using Outline.induction generalizing around rest with
  | h i below ih =>
    have hbelow : ∀ (bs : List Outline), (∀ b ∈ bs, b ∈ below) → ∀ rest,
        Piece.elements? (i :: around) (bs.flatMap (pieces texts) ++ rest) =
          (Piece.elements? (i :: around) rest).map (bs.flatMap (placed (i :: around)) ++ ·) := by
      intro bs hbs rest
      induction bs with
      | nil => simp
      | cons b r ihr =>
        rw [List.flatMap_cons, List.append_assoc, ih b (hbs b List.mem_cons_self),
          ihr fun b' hb' ↦ hbs b' (List.mem_cons_of_mem _ hb'), Option.map_map]
        simp [Function.comp_def]
    rw [pieces, hnone, placed]
    dsimp only
    cases below with
    | nil => simp [Piece.elements?]
    | cons b r =>
      rw [List.isEmpty_cons, if_neg Bool.false_ne_true, List.append_assoc, List.cons_append,
        Piece.elements?, hbelow _ fun _ hb ↦ hb]
      simp [Piece.elements?, Function.comp_def]

end Outline

end ViewCompiler
