import Mathlib.Data.List.Basic
import Mathlib.Data.List.TakeWhile
import Mathlib.Logic.Function.Iterate
import ViewCompiler.Proofs.Layout.Plans

/-!
# Where a run is split at floats

The scan of a run keeps two counters and a mark. What it comes to can be said without them: a float
waits until a node after it clears its side (`uncleared`), a node that finds floats waiting either
leaves none of them (`ClearsAll`) or leaves some (`LeavesSome`), and the run is cut in front of the
first node of either kind (`CutBefore`).

`FloatParts.exists_splits` says so of every run: the two cuts give the stretches whose floats are
in the upper and the lower parts, and what is from the first cut of all on is planned again.
-/

namespace ViewCompiler

/-! ### Cuts -/

/-- **A run cut in two** in front of the first node that is so, seen from the nodes in front of it.
There is nothing in the second part if no node is. -/
structure CutBefore (P : List Node → Node → Prop) (run first rest : List Node) : Prop where
  append : first ++ rest = run
  none : ∀ {seen : List Node} {n : Node} {after : List Node},
    first = seen ++ n :: after → ¬P seen n
  here : ∀ {n : Node} {after : List Node}, rest = n :: after → P first n

namespace CutBefore

variable {P : List Node → Node → Prop} {run first rest : List Node} {n : Node}

theorem nil : CutBefore P [] [] [] where
  append := rfl
  none h := absurd h (by simp)
  here h := absurd h (by simp)

theorem stop (hn : P [] n) : CutBefore P (n :: run) [] (n :: run) where
  append := rfl
  none h := absurd h (by simp)
  here h := (List.cons.inj h).1 ▸ hn

/-- A node in front that is not so. -/
theorem cons (hn : ¬P [] n) (h : CutBefore (fun seen ↦ P (n :: seen)) run first rest) :
    CutBefore P (n :: run) (n :: first) rest where
  append := congrArg (n :: ·) h.append
  none := by
    intro seen m after heq
    cases seen with
    | nil => exact (List.cons.inj heq).1 ▸ hn
    | cons k seen =>
      obtain ⟨hhead, htail⟩ := List.cons.inj heq
      exact hhead ▸ h.none htail
  here heq := h.here heq

end CutBefore

/-! ### Floats that wait -/

/-- Whether a clear is on the side of a float. -/
def Clear.isOn (c : Clear) : FloatSide → Bool
  | .none => false
  | .left => c.clearsLeft
  | .right => c.clearsRight

/-- Whether a node moves below a float. -/
def Node.clears (n float : Node) : Bool := n.style.clear.isOn float.style.float

/-- Whether a node floats on a side. -/
def Node.floatsOn (side : FloatSide) (n : Node) : Bool := n.style.float == side

namespace FloatParts

/-- The floats of a stretch that no node after them in it clears. -/
def uncleared : List Node → List Node
  | [] => []
  | n :: run =>
    if n.isFloating && !run.any (Node.clears · n) then n :: uncleared run else uncleared run

/-- A node that finds floats waiting and clears all of them. -/
def ClearsAll (seen : List Node) (n : Node) : Prop :=
  n.style.clear.isClearing ∧ uncleared seen ≠ [] ∧ ∀ f ∈ uncleared seen, n.clears f

/-- A node with a clear that finds floats waiting, of which some are on the other side. -/
def LeavesSome (seen : List Node) (n : Node) : Prop :=
  n.style.clear.isClearing ∧ uncleared seen ≠ [] ∧ ∃ f ∈ uncleared seen, ¬n.clears f

/-- **One node more**: it moves below some of the floats that wait, and then waits itself if it
floats. -/
theorem uncleared_concat (seen : List Node) (n : Node) :
    uncleared (seen ++ [n]) =
      (uncleared seen).filter (fun f ↦ !n.clears f) ++ if n.isFloating then [n] else [] := by
  induction seen with
  | nil => simp [uncleared]
  | cons m run ih =>
    have hany : (run ++ [n]).any (Node.clears · m) = (run.any (Node.clears · m) || n.clears m) := by
      simp
    rw [List.cons_append, uncleared, uncleared, hany, ih]
    cases m.isFloating <;> cases run.any (Node.clears · m) <;> cases hn : n.clears m <;> simp [hn]

/-! ### The counters -/

namespace Pending

/-- The number of floats that are pending on a side. -/
def on (p : Pending) : FloatSide → Nat
  | .none => 0
  | .left => p.left
  | .right => p.right

/-- **The counters of a scan** while some floats wait. -/
structure Counts (p : Pending) (waiting : List Node) : Prop where
  floats : ∀ f ∈ waiting, f.isFloating
  on : ∀ side, p.on side = (waiting.filter (Node.floatsOn side)).length

namespace Counts

variable {p : Pending} {waiting seen : List Node} {n : Node}

theorem nil (cleared : Bool) : Counts ⟨0, 0, cleared⟩ [] where
  floats _ hf := absurd hf List.not_mem_nil
  on side := by cases side <;> rfl

/-- The counters are both zero just if no float waits. -/
theorem sum_eq_zero_iff (h : p.Counts waiting) : p.left + p.right = 0 ↔ waiting = [] := by
  constructor
  · intro hzero
    obtain ⟨hleft, hright⟩ := Nat.add_eq_zero_iff.1 hzero
    have hl : waiting.filter (Node.floatsOn .left) = [] :=
      List.length_eq_zero_iff.1 ((h.on .left).symm.trans hleft)
    have hr : waiting.filter (Node.floatsOn .right) = [] :=
      List.length_eq_zero_iff.1 ((h.on .right).symm.trans hright)
    refine List.eq_nil_iff_forall_not_mem.2 fun f hf ↦ ?_
    have hfloat : (f.style.float != .none) = true := h.floats f hf
    cases hside : f.style.float with
    | none => simp [hside] at hfloat
    | left => exact List.filter_eq_nil_iff.1 hl f hf (beq_iff_eq.2 hside)
    | right => exact List.filter_eq_nil_iff.1 hr f hf (beq_iff_eq.2 hside)
  · rintro rfl
    have hleft : p.left = 0 := h.on .left
    have hright : p.right = 0 := h.on .right
    rw [hleft, hright]

theorem isCutBy_iff (h : p.Counts waiting) :
    p.isCutBy n = true ↔ n.style.clear.isClearing ∧ waiting ≠ [] := by
  rw [isCutBy, Bool.and_eq_true_iff, decide_eq_true_iff, Nat.pos_iff_ne_zero, ne_eq,
    h.sum_eq_zero_iff]

/-- The floats on a side that a clear leaves: none if it is on that side, and else all. -/
theorem filter_floatsOn (side : FloatSide) (waiting : List Node) (n : Node) :
    (waiting.filter fun f ↦ !n.clears f).filter (Node.floatsOn side) =
      if n.style.clear.isOn side then [] else waiting.filter (Node.floatsOn side) := by
  rw [List.filter_filter]
  split
  · rename_i hside
    refine List.filter_eq_nil_iff.2 fun f _ hf ↦ ?_
    obtain ⟨hon, hleft⟩ := Bool.and_eq_true_iff.1 hf
    rw [Node.clears, eq_of_beq hon, hside] at hleft
    exact absurd hleft (by decide)
  · rename_i hside
    refine List.filter_congr fun f _ ↦ ?_
    by_cases hon : f.style.float = side
    · simp [Node.floatsOn, Node.clears, hon, hside]
    · simp [Node.floatsOn, hon]

/-- **After the clear of a node** the floats wait that it leaves. -/
theorem afterClear (h : p.Counts waiting) (n : Node) :
    (p.afterClear n).Counts (waiting.filter fun f ↦ !n.clears f) where
  floats f hf := h.floats f (List.mem_filter.1 hf).1
  on side := by
    rw [filter_floatsOn, Pending.afterClear]
    split
    · have hside := h.on side
      cases side with
      | none => exact hside
      | left => cases hc : n.style.clear.clearsLeft <;> simp [Pending.on, Clear.isOn, hc, ← hside]
      | right => cases hc : n.style.clear.clearsRight <;> simp [Pending.on, Clear.isOn, hc, ← hside]
    · -- either the node has no clear, or nothing waits
      rename_i hcut
      rw [h.isCutBy_iff, not_and_or, not_not] at hcut
      rcases hcut with hclear | rfl
      · have hoff : n.style.clear.isOn side = false := by
          cases hc : n.style.clear with
          | none => cases side <;> rfl
          | left | right | both => exact absurd rfl (hc ▸ hclear)
        rw [hoff]
        exact h.on side
      · rw [h.on side]
        simp

/-- **After a node that may float** it waits, if it does. -/
theorem afterFloat (h : p.Counts waiting) (n : Node) :
    (p.afterFloat n).Counts (waiting ++ if n.isFloating then [n] else []) where
  floats f hf := by
    rcases List.mem_append.1 hf with hf | hf
    · exact h.floats f hf
    · split at hf
      · rename_i hn
        exact List.mem_singleton.1 hf ▸ hn
      · exact absurd hf List.not_mem_nil
  on side := by
    rw [List.filter_append, List.length_append, ← h.on side, Pending.afterFloat]
    cases hfloat : n.style.float <;> cases side <;>
      simp [Pending.on, Node.isFloating, FloatSide.isFloating, Node.floatsOn, hfloat]

/-- **Counting one node more.** -/
theorem concat (h : p.Counts (uncleared seen)) (n : Node) :
    ((p.afterClear n).afterFloat n).Counts (uncleared (seen ++ [n])) :=
  uncleared_concat seen n ▸ (h.afterClear n).afterFloat n

/-- A scan ends at the first node that clears all floats that wait. -/
theorem isEndedBy_iff (h : p.Counts (uncleared seen)) :
    p.isEndedBy n = true ↔ ClearsAll seen n := by
  rw [isEndedBy, Bool.and_eq_true_iff, h.isCutBy_iff, beq_iff_eq,
    (h.afterClear n).sum_eq_zero_iff, List.filter_eq_nil_iff, and_assoc, ClearsAll]
  simp

/-- The mark of a scan is set by the nodes that leave some floats waiting. -/
theorem cleared_afterClear (h : p.Counts (uncleared seen)) (hn : ¬ClearsAll seen n) :
    (p.afterClear n).cleared = true ↔ p.cleared = true ∨ LeavesSome seen n := by
  have hcut : p.isCutBy n = true ↔ LeavesSome seen n := by
    rw [h.isCutBy_iff]
    refine ⟨fun ⟨hclear, hne⟩ ↦ ⟨hclear, hne, ?_⟩, fun hsome ↦ ⟨hsome.1, hsome.2.1⟩⟩
    by_contra hall
    exact hn ⟨hclear, hne, fun f hf ↦ by_contra fun hf' ↦ hall ⟨f, hf, hf'⟩⟩
  rw [← hcut, Pending.afterClear]
  split <;> simp [*]

end Counts

theorem cleared_afterFloat (p : Pending) (n : Node) : (p.afterFloat n).cleared = p.cleared := by
  unfold afterFloat
  split <;> rfl

end Pending

/-! ### The parts -/

/-- **What the parts of a scan hold**, where `upper` and `lower` are the stretches in front of the
first node that leaves some floats waiting and from there on. -/
structure Holds (p : FloatParts) (upper lower : List Node) : Prop where
  inline : p.inline = (upper ++ lower).filter (!·.isFloating)
  leftAbove : p.leftAbove = upper.filter (Node.floatsOn .left)
  rightAbove : p.rightAbove = upper.filter (Node.floatsOn .right)
  leftBelow : p.leftBelow = lower.filter (Node.floatsOn .left)
  rightBelow : p.rightBelow = lower.filter (Node.floatsOn .right)

namespace Holds

variable {p : FloatParts} {upper lower : List Node}

theorem push_upper (h : p.Holds upper lower) (n : Node) :
    (p.push n false).Holds (n :: upper) lower := by
  obtain ⟨hinline, hleft, hright, hleft', hright'⟩ := h
  unfold push
  cases hfloat : n.style.float <;> constructor <;>
    simp_all [Node.floatsOn, Node.isFloating, FloatSide.isFloating]

theorem push_lower (h : p.Holds [] lower) (n : Node) : (p.push n true).Holds [] (n :: lower) := by
  obtain ⟨hinline, hleft, hright, hleft', hright'⟩ := h
  unfold push
  cases hfloat : n.style.float <;> constructor <;>
    simp_all [Node.floatsOn, Node.isFloating, FloatSide.isFloating]

end Holds

/-- What a scan makes of a run when some nodes have been seen. Once the mark is set all floats go
to the lower parts. -/
structure Scanned (cleared : Bool) (seen run : List Node) (p : FloatParts)
    (upper lower : List Node) : Prop where
  ended : CutBefore (fun before ↦ ClearsAll (seen ++ before)) run (upper ++ lower) p.below
  parted : cleared = false →
    CutBefore (fun before ↦ LeavesSome (seen ++ before)) (upper ++ lower) upper lower
  marked : cleared = true → upper = []
  holds : p.Holds upper lower

/-- **The scan of a run**, by induction on the run: the counters count the floats that wait. -/
theorem exists_scanned (run : List Node) {p : Pending} {seen : List Node}
    (hp : p.Counts (uncleared seen)) :
    ∃ upper lower, Scanned p.cleared seen run (scan p run) upper lower := by
  induction run generalizing p seen with
  | nil => exact ⟨[], [], .nil, fun _ ↦ .nil, fun _ ↦ rfl, rfl, rfl, rfl, rfl, rfl⟩
  | cons n run ih =>
    have hseen : seen ++ [] = seen := List.append_nil seen
    have hmore (before : List Node) : seen ++ [n] ++ before = seen ++ n :: before := by simp
    rw [scan]
    split
    · rename_i hend
      refine ⟨[], [], .stop ?_, fun _ ↦ .nil, fun _ ↦ rfl, rfl, rfl, rfl, rfl, rfl⟩
      exact hseen.symm ▸ hp.isEndedBy_iff.1 hend
    · rename_i hend
      have hnot : ¬ClearsAll seen n := fun h ↦ hend (hp.isEndedBy_iff.2 h)
      have hmark := hp.cleared_afterClear hnot
      obtain ⟨upper, lower, h⟩ := ih (hp.concat n)
      rw [Pending.cleared_afterFloat] at h
      obtain ⟨hended, hparted, hmarked, hholds⟩ := h
      simp only [hmore] at hended hparted
      have hended' : CutBefore (fun before ↦ ClearsAll (seen ++ before)) (n :: run)
          (n :: (upper ++ lower)) (scan ((p.afterClear n).afterFloat n) run).below :=
        .cons (hseen.symm ▸ hnot) hended
      cases hcleared : (p.afterClear n).cleared with
      | false =>
        have hkeep : ¬(p.cleared = true ∨ LeavesSome seen n) := by simp [← hmark, hcleared]
        refine ⟨n :: upper, lower, ?_, fun _ ↦ ?_, fun h ↦ absurd (.inl h) hkeep,
          hholds.push_upper n⟩
        · rw [below_push]
          exact hended'
        · exact .cons (hseen.symm ▸ fun h ↦ hkeep (.inr h)) (hparted hcleared)
      | true =>
        obtain rfl := hmarked hcleared
        refine ⟨[], n :: lower, ?_, fun hp' ↦ .stop ?_, fun _ ↦ rfl, hholds.push_lower n⟩
        · rw [below_push]
          exact hended'
        · exact hseen.symm ▸ (hmark.1 hcleared).resolve_left (by simp [hp'])

/-- **A run split at its floats**: nothing is lost or moved about, the part above is in front of the
first float, and from there on the run is cut in front of the first node that clears all floats that
wait, and the stretch up to there in front of the first node that leaves some. -/
structure Splits (run : List Node) (p : FloatParts) (upper lower : List Node) : Prop extends
  p.Holds upper lower where
  perm : p.all.Perm run
  inOrder : ∀ part ∈ [p.above, p.leftAbove, p.rightAbove, p.inline, p.leftBelow, p.rightBelow,
    p.below], part.Sublist run
  above : p.above = run.takeWhile (!·.isFloating)
  ended : CutBefore ClearsAll (run.dropWhile (!·.isFloating)) (upper ++ lower) p.below
  parted : CutBefore LeavesSome (upper ++ lower) upper lower
  shorter : run ≠ [] → p.below.length < run.length

theorem length_below_lt_of_ne_nil {run : List Node} (h : run ≠ []) :
    (ofRun run).below.length < run.length := by
  by_cases hfloat : run.any Node.isFloating = true
  · exact length_below_lt hfloat
  · have hnone : run.dropWhile (!·.isFloating) = [] := by
      rw [List.dropWhile_eq_nil_iff]
      intro n hn
      simpa using fun hn' ↦ hfloat (List.any_eq_true.2 ⟨n, hn, hn'⟩)
    have hbelow : (ofRun run).below = [] := by
      rw [ofRun, hnone]
      rfl
    rw [hbelow]
    exact List.length_pos_iff.2 h

/-- Splitting what is below, and what is below that, comes to an end. -/
theorem iterate_below_eq_nil (k : Nat) {run : List Node} (h : run.length ≤ k) :
    (fun run ↦ (ofRun run).below)^[k] run = [] := by
  induction k generalizing run with
  | zero => exact List.length_eq_zero_iff.1 (Nat.le_zero.1 h)
  | succ k ih =>
    rw [Function.iterate_succ_apply]
    refine ih ?_
    by_cases hrun : run = []
    · subst hrun
      exact Nat.zero_le k
    · exact Nat.le_of_lt_succ (Nat.lt_of_lt_of_le (length_below_lt_of_ne_nil hrun) h)

/-- **Every run is split in this way**, and splitting can be repeated below until nothing is
left. -/
theorem exists_splits (run : List Node) :
    (∃ upper lower, Splits run (ofRun run) upper lower) ∧
      (fun run ↦ (ofRun run).below)^[run.length] run = [] := by
  refine ⟨?_, iterate_below_eq_nil _ (Nat.le_refl _)⟩
  have hstart : Pending.Counts ⟨0, 0, false⟩ (uncleared []) := .nil false
  obtain ⟨upper, lower, hended, hparted, -, hholds⟩ :=
    exists_scanned (run.dropWhile (!·.isFloating)) hstart
  have hrest : (run.dropWhile (!·.isFloating)).Sublist run := List.dropWhile_sublist _
  have hscanned : (upper ++ lower).Sublist run :=
    (hended.append ▸ List.sublist_append_left _ _ : (upper ++ lower).Sublist _).trans hrest
  have hupper : upper.Sublist run := (List.sublist_append_left _ _).trans hscanned
  have hlower : lower.Sublist run := (List.sublist_append_right _ _).trans hscanned
  have hbelow : (ofRun run).below.Sublist run :=
    (hended.append ▸ List.sublist_append_right _ _ : (ofRun run).below.Sublist _).trans hrest
  have hholds' : (ofRun run).Holds upper lower :=
    ⟨hholds.inline, hholds.leftAbove, hholds.rightAbove, hholds.leftBelow, hholds.rightBelow⟩
  refine ⟨upper, lower, hholds', perm_all run, ?_, rfl, hended, hparted rfl,
    length_below_lt_of_ne_nil⟩
  simp only [List.forall_mem_cons, List.not_mem_nil, false_imp_iff, implies_true, and_true]
  rw [hholds'.inline, hholds'.leftAbove, hholds'.rightAbove, hholds'.leftBelow, hholds'.rightBelow]
  exact ⟨List.takeWhile_sublist _, List.filter_sublist.trans hupper,
    List.filter_sublist.trans hupper, List.filter_sublist.trans hscanned,
    List.filter_sublist.trans hlower, List.filter_sublist.trans hlower, hbelow⟩

end FloatParts

end ViewCompiler
