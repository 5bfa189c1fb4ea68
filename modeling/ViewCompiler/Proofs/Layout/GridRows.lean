import Mathlib.Algebra.Group.Action.Defs
import Mathlib.Algebra.Order.BigOperators.Group.List
import Mathlib.Algebra.Order.Group.Nat
import Mathlib.Data.List.Chain
import Mathlib.Data.List.Fold
import Mathlib.Data.List.MinMax
import Mathlib.Order.Nat
import ViewCompiler.Proofs.Layout.Justified

/-!
# Rows of a grid

The cells of a grid are put into rows from top to bottom: a cell that shares a band with the row so
far joins it, and any other cell begins the next row. `Axis.IsRows` says what the rows are without
going through the cells, and `Axis.isRows_rows` that they are that.

The order of cells is the only thing that rests on a law of numbers, which is that edges are in a
total order; a `NaN` comes last in it. What a band is and whether a box shares it is taken as it is.
So the boxes may overlap in any way, and their edges may be infinite or no numbers.

A grid is counted in rows and in columns, and every cell has a place in it
(`Axis.holds_gridShape`). The plan of a node that asks for a grid is counted so once, from the boxes
of its members in the flow, and the decision says the same (`Classify.grids_hold_members`).
-/

namespace ViewCompiler

/-- The box around one more box. -/
theorem Rect.unionAll?_concat {rs : List Rect} {band : Rect} (h : unionAll? rs = some band)
    (r : Rect) : unionAll? (rs ++ [r]) = some (band.union r) := by
  cases rs with
  | nil => exact absurd h (by simp [unionAll?])
  | cons s rs =>
    obtain rfl := Option.some.inj h
    rw [List.cons_append, unionAll?, List.foldl_append, List.foldl_cons, List.foldl_nil]

namespace Axis

section

variable (tolerance : Scalar) (boxes : List Rect)

/-! ### What rows are -/

/-- The box of a cell. -/
def cellBox (i : Nat) : Rect := boxes.getD i .zero

/-- The smallest box around some cells, if there are any. -/
def band? (cells : List Nat) : Option Rect := Rect.unionAll? (cells.map (cellBox boxes))

/-- Whether a cell comes before another one: by the top edge, then by the left edge, then in the
order of the source. -/
def Precedes (i j : Nat) : Prop :=
  ((Scalar.compare (cellBox boxes i).y (cellBox boxes j).y).then
    ((Scalar.compare (cellBox boxes i).x (cellBox boxes j).x).then (compare i j))) = .lt

/-- **A row**: each cell but the first one shares a band with all cells before it, taken
together. -/
def IsRow (row : List Nat) : Prop :=
  ∀ earlier i, earlier ≠ [] → (earlier ++ [i]) <+: row →
    ∃ band, band? boxes earlier = some band ∧
      band.overlapsVertically (cellBox boxes i) tolerance = true

/-- **The end of a row**: the first cell of the next one shares no band with it. -/
def EndsBefore (row next : List Nat) : Prop :=
  ∃ band i, band? boxes row = some band ∧ next.head? = some i ∧
    band.overlapsVertically (cellBox boxes i) tolerance = false

/-- **The rows of a grid**, with every cell in exactly one place. -/
structure IsRows (rows : List (List Nat)) : Prop where
  nonempty : ∀ row ∈ rows, row ≠ []
  perm : rows.flatten.Perm (List.range boxes.length)
  ordered : rows.flatten.Pairwise (Precedes boxes)
  joined : ∀ row ∈ rows, IsRow tolerance boxes row
  ended : rows.IsChain (EndsBefore tolerance boxes)

variable {tolerance boxes}

theorem band?_concat {cells : List Nat} {band : Rect} (h : band? boxes cells = some band)
    (i : Nat) : band? boxes (cells ++ [i]) = some (band.union (cellBox boxes i)) := by
  rw [band?, List.map_append]
  exact Rect.unionAll?_concat h _

theorem isRow_singleton (i : Nat) : IsRow tolerance boxes [i] := fun earlier j hne hprefix ↦ by
  have hlength := hprefix.length_le
  rw [List.length_append, List.length_singleton] at hlength
  exact absurd (List.eq_nil_of_length_eq_zero (by simpa using hlength)) hne

/-- A row with one more cell. -/
theorem IsRow.concat {row : List Nat} (h : IsRow tolerance boxes row) {band : Rect} {i : Nat}
    (hband : band? boxes row = some band)
    (hi : band.overlapsVertically (cellBox boxes i) tolerance = true) :
    IsRow tolerance boxes (row ++ [i]) := by
  intro earlier j hne hprefix
  rcases List.prefix_concat_iff.1 hprefix with heq | hprefix
  · obtain ⟨rfl, hj⟩ := List.append_inj' heq rfl
    obtain rfl := List.singleton_inj.1 hj
    exact ⟨band, hband, hi⟩
  · exact h earlier j hne hprefix

/-! ### Filling rows -/

section Filling

variable {cells : List (Nat × Rect)} {row : List Nat} {band : Rect}

theorem flatten_rowsFrom (band : Rect) (row : List Nat) (cells : List (Nat × Rect)) :
    (rowsFrom tolerance band row cells).flatten = row.reverse ++ cells.map Prod.fst := by
  induction cells generalizing band row with
  | nil => rw [rowsFrom, List.flatten_singleton, List.map_nil, List.append_nil]
  | cons cell cells ih =>
    rw [rowsFrom]
    split
    · rw [ih, List.reverse_cons, List.append_assoc, List.map_cons, List.singleton_append]
    · rw [List.flatten_cons, ih, List.map_cons, List.reverse_singleton, List.singleton_append]

/-- The row so far is the beginning of the first row. -/
theorem exists_rowsFrom_eq (tolerance : Scalar) (band : Rect) (row : List Nat)
    (cells : List (Nat × Rect)) :
    ∃ more rest, rowsFrom tolerance band row cells = (row.reverse ++ more) :: rest := by
  induction cells generalizing band row with
  | nil => exact ⟨[], [], by rw [rowsFrom, List.append_nil]⟩
  | cons cell cells ih =>
    rw [rowsFrom]
    split
    · obtain ⟨more, rest, hrows⟩ := ih (band.union cell.2) (cell.1 :: row)
      exact ⟨cell.1 :: more, rest, by rw [hrows, List.reverse_cons, List.append_assoc]; rfl⟩
    · exact ⟨[], _, by rw [List.append_nil]⟩

theorem ne_nil_of_mem_rowsFrom (hne : row ≠ []) :
    ∀ r ∈ rowsFrom tolerance band row cells, r ≠ [] := by
  induction cells generalizing band row with
  | nil =>
    intro r hr
    rw [List.mem_singleton.1 hr]
    exact List.reverse_ne_nil_iff.2 hne
  | cons cell cells ih =>
    rw [rowsFrom]
    split
    · exact ih (List.cons_ne_nil _ _)
    · exact List.forall_mem_cons.2
        ⟨List.reverse_ne_nil_iff.2 hne, ih (List.cons_ne_nil _ _)⟩

variable (hcells : ∀ cell ∈ cells, cellBox boxes cell.1 = cell.2)
  (hband : band? boxes row.reverse = some band)

include hcells hband

/-- The band is that of the row so far, in every step. -/
theorem isRow_of_mem_rowsFrom (hrow : IsRow tolerance boxes row.reverse) :
    ∀ r ∈ rowsFrom tolerance band row cells, IsRow tolerance boxes r := by
  induction cells generalizing band row with
  | nil => exact fun r hr ↦ List.mem_singleton.1 hr ▸ hrow
  | cons cell cells ih =>
    obtain ⟨hcell, hrest⟩ := List.forall_mem_cons.1 hcells
    rw [rowsFrom]
    split
    · rename_i hjoins
      rw [← hcell] at hjoins ⊢
      refine ih hrest ?_ ?_
      · rw [List.reverse_cons]
        exact band?_concat hband cell.1
      · rw [List.reverse_cons]
        exact hrow.concat hband hjoins
    · rw [← hcell]
      exact List.forall_mem_cons.2 ⟨hrow, ih hrest rfl (isRow_singleton cell.1)⟩

theorem isChain_rowsFrom :
    (rowsFrom tolerance band row cells).IsChain (EndsBefore tolerance boxes) := by
  induction cells generalizing band row with
  | nil => exact List.isChain_singleton _
  | cons cell cells ih =>
    obtain ⟨hcell, hrest⟩ := List.forall_mem_cons.1 hcells
    rw [rowsFrom]
    split
    · rw [← hcell]
      refine ih hrest ?_
      rw [List.reverse_cons]
      exact band?_concat hband cell.1
    · rename_i hends
      rw [← hcell] at hends ⊢
      refine List.isChain_cons.2 ⟨fun next hnext ↦ ?_, ih hrest rfl⟩
      obtain ⟨more, rest, hrows⟩ :=
        exists_rowsFrom_eq tolerance (cellBox boxes cell.1) [cell.1] cells
      rw [hrows] at hnext
      obtain rfl := Option.some.inj hnext
      exact ⟨band, cell.1, hband, rfl, Bool.not_eq_true _ ▸ hends⟩

end Filling

/-! ### Cells in order -/

theorem topLeftLE_iff {a b : Nat × Rect} : topLeftLE a b = true ↔
    Scalar.orderKey a.2.y < Scalar.orderKey b.2.y ∨
      Scalar.orderKey a.2.y = Scalar.orderKey b.2.y ∧
        Scalar.orderKey a.2.x ≤ Scalar.orderKey b.2.x := by
  rw [topLeftLE, Ordering.isLE_then_iff_or, Scalar.compare, Scalar.compare, Int.compare_eq_lt,
    Int.compare_eq_eq, Int.isLE_compare]

theorem precedes_iff {i j : Nat} : Precedes boxes i j ↔
    Scalar.orderKey (cellBox boxes i).y < Scalar.orderKey (cellBox boxes j).y ∨
      Scalar.orderKey (cellBox boxes i).y = Scalar.orderKey (cellBox boxes j).y ∧
        (Scalar.orderKey (cellBox boxes i).x < Scalar.orderKey (cellBox boxes j).x ∨
          Scalar.orderKey (cellBox boxes i).x = Scalar.orderKey (cellBox boxes j).x ∧ i < j) := by
  rw [Precedes, Ordering.then_eq_lt, Ordering.then_eq_lt, Scalar.compare, Scalar.compare,
    Int.compare_eq_lt, Int.compare_eq_eq, Int.compare_eq_lt, Int.compare_eq_eq, Nat.compare_eq_lt]

variable (boxes)

/-- The cells of a grid with their boxes, in the order of the source. -/
def cells : List (Nat × Rect) := boxes.zipIdx.map fun (r, i) ↦ (i, r)

theorem map_fst_cells : (cells boxes).map Prod.fst = List.range boxes.length := by
  rw [cells, List.map_map, List.range_eq_range', ← List.zipIdx_map_snd 0 boxes]
  rfl

variable {boxes}

theorem cellBox_of_mem {cell : Nat × Rect} (h : cell ∈ cells boxes) :
    cellBox boxes cell.1 = cell.2 := by
  obtain ⟨⟨r, i⟩, hmem, rfl⟩ := List.mem_map.1 h
  rw [cellBox, List.getD_eq_getElem?_getD, List.mem_zipIdx_iff_getElem?.1 hmem, Option.getD_some]

/-- Cells that are sorted by their boxes, so that ties are in the order of the source, are in
order. -/
theorem pairwise_precedes (boxes : List Rect) :
    ((stableSort topLeftLE (cells boxes)).map Prod.fst).Pairwise (Precedes boxes) := by
  have hsource : (cells boxes).Pairwise fun a b ↦ a.1 < b.1 := by
    rw [← List.pairwise_map (f := Prod.fst) (R := (· < ·)), map_fst_cells]
    exact List.pairwise_lt_range
  have htotal : ∀ a b : Nat × Rect, topLeftLE a b = true ∨ topLeftLE b a = true := fun a b ↦ by
    rw [topLeftLE_iff, topLeftLE_iff]
    omega
  have htrans : ∀ a b c : Nat × Rect, topLeftLE a b = true → topLeftLE b c = true →
      topLeftLE a c = true := fun a b c hab hbc ↦ by
    rw [topLeftLE_iff] at hab hbc ⊢
    omega
  have hsorted := (pairwise_stableSort htotal htrans (cells boxes)).and
    (pairwise_stableSort_ties topLeftLE hsource)
  refine List.pairwise_map.2 (hsorted.imp_of_mem fun {a b} ha hb ⟨hle, hties⟩ ↦ ?_)
  rw [topLeftLE_iff] at hle hties
  rw [precedes_iff, cellBox_of_mem (mem_stableSort.1 ha), cellBox_of_mem (mem_stableSort.1 hb)]
  omega

variable (tolerance boxes)

/-- **The rows of a grid**, for any boxes. -/
theorem isRows_rows : IsRows tolerance boxes (rows tolerance boxes) := by
  have hperm : (stableSort topLeftLE (cells boxes)).map Prod.fst |>.Perm
      (List.range boxes.length) :=
    map_fst_cells boxes ▸ (perm_stableSort _ _).map Prod.fst
  have hordered := pairwise_precedes boxes
  have hcells : ∀ cell ∈ stableSort topLeftLE (cells boxes), cellBox boxes cell.1 = cell.2 :=
    fun cell hcell ↦ cellBox_of_mem (mem_stableSort.1 hcell)
  rw [rows, ← cells]
  generalize stableSort topLeftLE (cells boxes) = sorted at hperm hordered hcells ⊢
  rcases sorted with - | ⟨⟨i, r⟩, sorted⟩
  · exact ⟨by simp, hperm, hordered, by simp, List.isChain_nil⟩
  · obtain ⟨hcell, hrest⟩ := List.forall_mem_cons.1 hcells
    obtain rfl : cellBox boxes i = r := hcell
    have hflatten : (rowsFrom tolerance (cellBox boxes i) [i] sorted).flatten =
        i :: sorted.map Prod.fst := flatten_rowsFrom _ _ _
    exact {
      nonempty := ne_nil_of_mem_rowsFrom (List.cons_ne_nil _ _)
      perm := hflatten ▸ hperm
      ordered := hflatten ▸ hordered
      joined := isRow_of_mem_rowsFrom hrest rfl (isRow_singleton i)
      ended := isChain_rowsFrom hrest rfl }

end

end Axis

/-! ### Counting rows and columns -/

/-- A grid that some number of cells fit into, with no row or column too many. -/
structure GridShape.Holds (s : GridShape) (n : Nat) : Prop where
  columns_pos : 1 ≤ s.columns
  columns_le : s.columns ≤ n
  rows_pos : 1 ≤ s.rows
  rows_le : s.rows ≤ n
  le_mul : n ≤ s.rows * s.columns

namespace Axis

/-- **Every cell has a place in the grid.** -/
theorem holds_gridShape (tolerance : Scalar) {boxes : List Rect} (hne : boxes ≠ []) :
    (gridShape tolerance boxes).Holds boxes.length := by
  have h := isRows_rows tolerance boxes
  have hlength : boxes.length = ((rows tolerance boxes).map List.length).sum := by
    rw [← List.length_flatten, h.perm.length_eq, List.length_range]
  have hcolumns : (gridShape tolerance boxes).columns =
      ((rows tolerance boxes).map List.length).foldr max 0 := List.foldl_eq_foldr
  have hle : ∀ row ∈ rows tolerance boxes,
      row.length ≤ (gridShape tolerance boxes).columns := fun row hrow ↦ by
    rw [hcolumns]
    exact List.le_max_of_le (List.mem_map_of_mem hrow) (Nat.le_refl _)
  have hpos : ∀ row ∈ rows tolerance boxes, 1 ≤ row.length := fun row hrow ↦
    List.length_pos_iff.2 (h.nonempty row hrow)
  obtain ⟨row, hrow⟩ : ∃ row, row ∈ rows tolerance boxes := by
    refine List.exists_mem_of_ne_nil _ fun hnil ↦ ?_
    rw [hnil] at hlength
    exact hne (List.eq_nil_of_length_eq_zero hlength)
  exact {
    columns_pos := Nat.le_trans (hpos row hrow) (hle row hrow)
    columns_le := by
      rw [hcolumns]
      refine List.max_le_of_forall_le _ _ (List.forall_mem_map.2 fun r hr ↦ ?_)
      rw [hlength, ← List.length_flatten]
      exact (List.sublist_flatten_of_mem hr).length_le
    rows_pos := List.length_pos_of_mem hrow
    rows_le := by
      rw [hlength]
      refine Nat.le_trans (Nat.le_of_eq (List.length_map List.length).symm) ?_
      exact List.length_le_sum_of_one_le _ (List.forall_mem_map.2 hpos)
    le_mul := by
      rw [hlength]
      have hsum := List.sum_le_card_nsmul ((rows tolerance boxes).map List.length)
        (gridShape tolerance boxes).columns (List.forall_mem_map.2 hle)
      rw [List.length_map, smul_eq_mul] at hsum
      exact hsum }

end Axis

/-! ### Decisions -/

/-- **A decision on a grid** counts the boxes of its members. -/
theorem LayoutDecision.CarriesOut.exists_of_grid {c : LayoutConfig} {content : Rect}
    {nodes : List Node} {o : ClassifyOutcome} {d : LayoutDecision} {a : Arrangement}
    {ps : List Plan} (h : d.CarriesOut c content nodes o a ps) {shape : GridShape}
    (hgrid : d.grid = some shape) : ∃ run : List Node, run ⊆ nodes ∧ run ≠ [] ∧
      d.members.Sublist (run.map Node.id) ∧ (o.skipped = [] → d.members = run.map Node.id) ∧
      shape = Axis.gridShape c.tolerance (run.map Node.bounds) := by
  obtain ⟨ids, hids, hmembers⟩ := h.members
  rw [h.grid] at hgrid
  have hshape := h.shape
  clear h
  induction hshape with
  | @grid run inside nonempty =>
    obtain rfl := Plan.eq_map_of_standsFor hids
    exact ⟨run, inside, nonempty, hmembers.1, hmembers.2, (Option.some.inj hgrid).symm⟩
  | reversed _ ih => exact ih hgrid hids
  | _ => exact absurd hgrid (by simp)

namespace Classify

/-- **Grids hold their members.** The rows of any boxes are as they should be, so that the shape of
a grid with cells has a place for each of them and no row or column too many. And the shape that a
decision of a run says is that of the boxes of some pending members, one or more: the members of the
decision are among these, in the same order, and are all of them if no member is skipped. -/
theorem grids_hold_members :
    (∀ tolerance boxes, Axis.IsRows tolerance boxes (Axis.rows tolerance boxes)) ∧
    (∀ tolerance boxes, boxes ≠ [] →
      (Axis.gridShape tolerance boxes).Holds boxes.length) ∧
    ∀ c t parent o t', run c t parent = .ok (o, t') → ∀ d ∈ o.decisions, ∀ shape,
      d.grid = some shape → ∃ run : List Node, run ⊆ t.lookup (t.pending parent) ∧ run ≠ [] ∧
        d.members.Sublist (run.map Node.id) ∧ (o.skipped = [] → d.members = run.map Node.id) ∧
        shape = Axis.gridShape c.tolerance (run.map Node.bounds) ∧ shape.Holds run.length := by
  refine ⟨Axis.isRows_rows, fun tolerance boxes ↦ Axis.holds_gridShape tolerance, ?_⟩
  intro c t parent o t' hok d hd shape hgrid
  obtain ⟨p, -, a, ps, hout⟩ := exists_carriesOut hok hd
  obtain ⟨run, hinside, hne, hsub, heq, rfl⟩ := hout.exists_of_grid hgrid
  refine ⟨run, hinside, hne, hsub, heq, rfl, ?_⟩
  have hholds := Axis.holds_gridShape c.tolerance (mt List.map_eq_nil_iff.1 hne :
    run.map Node.bounds ≠ [])
  rwa [List.length_map] at hholds

/-- A root that asks for a grid, with two elements that share a band. -/
def besideOnGrid : NodeTree :=
  ((twoBoxes.modify 0 fun n ↦ { n with style := n.style.set "display" "grid" }).modify 1
    fun n ↦ { n with bounds := ⟨0, 0, 4, 4⟩ }).modify 2
      fun n ↦ { n with bounds := ⟨5, 1, 4, 4⟩ }

/-- The two elements are in one row, and a third box below them begins another one. -/
theorem grids_hold_members_besideOnGrid :
    ([⟨0, 0, 4, 4⟩, ⟨5, 1, 4, 4⟩, ⟨0, 8, 4, 4⟩] : List Rect) ≠ [] ∧
      (Axis.gridShape 0 [⟨0, 0, 4, 4⟩, ⟨5, 1, 4, 4⟩, ⟨0, 8, 4, 4⟩]).Holds 3 ∧
      Axis.rows 0 [⟨0, 0, 4, 4⟩, ⟨5, 1, 4, 4⟩, ⟨0, 8, 4, 4⟩] = [[0, 1], [2]] ∧
      ∃ o t' d, run .default besideOnGrid 0 = .ok (o, t') ∧ d ∈ o.decisions ∧
        d.members = [1, 2] ∧ d.grid = some ⟨2, 1⟩ ∧ GridShape.Holds ⟨2, 1⟩ d.members.length := by
  obtain ⟨-, hshapes, hgrids⟩ := grids_hold_members
  refine ⟨by simp, hshapes 0 [⟨0, 0, 4, 4⟩, ⟨5, 1, 4, 4⟩, ⟨0, 8, 4, 4⟩] (by simp),
    by decide +kernel, ?_⟩
  have hdecided : (run .default besideOnGrid 0).toOption.map
      (fun r ↦ (r.1.decisions.map fun d ↦ (d.members, d.grid), r.1.skipped)) =
        some ([([1, 2], some ⟨2, 1⟩)], []) := by
    decide +kernel
  cases hok : run .default besideOnGrid 0 with
  | error e =>
    rw [hok] at hdecided
    exact absurd hdecided (by simp [Except.toOption])
  | ok answer =>
    obtain ⟨o, t'⟩ := answer
    rw [hok] at hdecided
    obtain ⟨hdecisions, hskipped⟩ := Prod.mk.inj (Option.some.inj hdecided)
    obtain ⟨d, hd, hone⟩ := List.map_eq_singleton_iff.1 hdecisions
    obtain ⟨hmembers, hgrid⟩ := Prod.mk.inj hone
    have hmem : d ∈ o.decisions := hd ▸ List.mem_singleton_self d
    obtain ⟨run, -, -, -, hall, -, hholds⟩ := hgrids _ _ _ _ _ hok d hmem ⟨2, 1⟩ hgrid
    refine ⟨o, t', d, rfl, hmem, hmembers, hgrid, ?_⟩
    rwa [hall hskipped, List.length_map]

end Classify

end ViewCompiler
