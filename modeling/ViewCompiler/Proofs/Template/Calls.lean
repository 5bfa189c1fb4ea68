import Mathlib.Data.Finset.Dedup
import Mathlib.Data.Finset.Card
import ViewCompiler.Proofs.SortedMap
import ViewCompiler.Template.Assembly

/-!
# Resolution after any calls

An assembly is reached by calls in any order, with texts and saved orders from outside, and so its
slots may be bound to anything: to one node many times, to a node around them, or to nothing.
`Assembly.run` is the assembly after a list of calls, which may even be about different trees.

What `Assembly.resolve` does is described without fuel by `Assembly.Walks`: a walk goes through the
pieces of a fragment, enters the node that a slot is bound to, and turns back at a slot whose node
is on the path already. The main statement is `Assembly.resolve_run`: from every such assembly and
every root there is exactly one walk, and the resolution is written along it. Elements open and
close in pairs, no slot is left, and each slot that could not be filled is reported where its marker
stands.

## Shape decisions

* A walk is a list of visits (`Visit`), one for each piece that is written. Pieces, unresolved slots
  and cycles are three readings of that list, so that "once" and "at that place" need no counting.
* Pairs are recognised by a stack (`Piece.openAfter?`). To the stack a filled slot looks like an
  empty one (`Assembly.Walks.openAfter?_eq`), since every fragment leaves the stack as it was.
* The fuel suffices because a walk only enters nodes that are bound to some slot and not on the path
  (`Assembly.room`).
-/

namespace ViewCompiler

/-! ### Pairs -/

namespace Piece

/-- The elements that are open after some pieces, the innermost one first, unless one is closed
that is not the innermost. -/
def openAfter? (around : List NodeId) : List Piece → Option (List NodeId)
  | [] => some around
  | opening i :: r => openAfter? (i :: around) r
  | closing i :: r => if around.head? = some i then openAfter? around.tail r else none
  | _ :: r => openAfter? around r

/-- Pieces that close the elements they open, and no others. -/
def Paired (ps : List Piece) : Prop := ∀ around, openAfter? around ps = some around

theorem openAfter?_append (around : List NodeId) (ps qs : List Piece) :
    openAfter? around (ps ++ qs) = (openAfter? around ps).bind fun around ↦
      openAfter? around qs := by
  induction ps generalizing around with
  | nil => rfl
  | cons p r ih =>
    cases p with
    | closing i =>
      rw [List.cons_append, openAfter?, openAfter?]
      split
      · exact ih _
      · rfl
    | _ => exact ih _

/-- Pieces that open and close nothing. -/
theorem paired_of_flat {ps : List Piece}
    (h : ∀ p ∈ ps, (∃ place, p = .slot place) ∨ ∃ text, p = .raw text) : Paired ps := by
  intro around
  induction ps with
  | nil => rfl
  | cons p r ih =>
    have hrest := ih fun q hq ↦ h q (List.mem_cons_of_mem _ hq)
    rcases h p List.mem_cons_self with ⟨place, rfl⟩ | ⟨text, rfl⟩
    · exact hrest
    · exact hrest

end Piece

theorem Fragment.paired_leaf (i : NodeId) : Piece.Paired (leaf i).pieces := fun _ ↦ rfl

theorem Fragment.paired_container (i : NodeId) (n : Nat) :
    Piece.Paired (container i n).pieces := by
  rw [container]
  split
  · exact paired_leaf i
  · intro around
    have hslots : Piece.Paired ((List.range n).map fun k : Nat ↦ Piece.slot ⟨i, k⟩) :=
      Piece.paired_of_flat fun p hp ↦ by
        obtain ⟨k, -, rfl⟩ := List.mem_map.1 hp
        exact .inl ⟨_, rfl⟩
    show Piece.openAfter? (i :: around) (_ ++ [.closing i]) = some around
    rw [Piece.openAfter?_append, hslots]
    simp [Piece.openAfter?]

theorem Fragment.paired_ofText (text : String) : Piece.Paired (ofText text).pieces :=
  Piece.paired_of_flat fun p hp ↦ by
    obtain ⟨s, -, rfl⟩ := List.mem_map.1 hp
    cases s with
    | text cs => exact .inr ⟨_, rfl⟩
    | slot place => exact .inl ⟨_, rfl⟩

/-! ### Calls -/

namespace Assembly

/-- What can be asked of an assembly. -/
inductive Call where
  | beginLevel
  | place (t : NodeTree) (node : NodeId)
  | replace (t : NodeTree) (node : NodeId) (text : String)
  | saveOrder (owner : NodeId) (order : List NodeId)
  | finishLevel

/-- The assembly after a call. A call that fails may have changed something. -/
def perform (a : Assembly) : Call → Assembly
  | .beginLevel => a.beginLevel
  | .place t node => (a.place t node).2
  | .replace t node text => (a.replace t node text).2
  | .saveOrder owner order => a.saveOrder owner order
  | .finishLevel => a.finishLevel.2

/-- The assembly after some calls. -/
def run (calls : List Call) : Assembly := calls.foldl perform empty

theorem run_concat (calls : List Call) (call : Call) :
    run (calls ++ [call]) = (run calls).perform call := List.foldl_concat _ _ _ _

/-! ### What calls leave alone -/

/-- An assembly that differs from another one in what is bound and what waits. -/
def Rebinds (a a' : Assembly) : Prop :=
  ∃ bindings waiting, a' = { a with bindings := bindings, waiting := waiting }

namespace Rebinds

variable {a a' a'' : Assembly}

theorem refl (a : Assembly) : Rebinds a a := ⟨_, _, rfl⟩

theorem trans (h : Rebinds a a') (h' : Rebinds a' a'') : Rebinds a a'' := by
  obtain ⟨_, _, rfl⟩ := h
  obtain ⟨_, _, rfl⟩ := h'
  exact ⟨_, _, rfl⟩

theorem foldl {α : Type} {f : Assembly → α → Assembly} (hf : ∀ a e, Rebinds a (f a e))
    (l : List α) (a : Assembly) : Rebinds a (l.foldl f a) := by
  induction l generalizing a with
  | nil => exact refl a
  | cons e r ih => exact (hf a e).trans (ih _)

theorem fragments (h : Rebinds a a') : a'.fragments = a.fragments := by
  obtain ⟨_, _, rfl⟩ := h
  rfl

theorem announced (h : Rebinds a a') : a'.announced = a.announced := by
  obtain ⟨_, _, rfl⟩ := h
  rfl

theorem bind (a : Assembly) (s : Placeholder) (c : NodeId) : Rebinds a (a.bind s c) := ⟨_, _, rfl⟩

theorem bindAll (a : Assembly) (l : List (Placeholder × NodeId)) :
    Rebinds a (l.foldl (fun a e ↦ a.bind e.1 e.2) a) := foldl (fun a e ↦ bind a e.1 e.2) l a

theorem commit (a : Assembly) (s : Placeholder) (c : NodeId) : Rebinds a (a.commit s c) := by
  rw [Assembly.commit]
  split <;> exact ⟨_, _, rfl⟩

theorem commitAll (a : Assembly) (l : List (Placeholder × NodeId)) :
    Rebinds a (l.foldl (fun a e ↦ a.commit e.1 e.2) a) := foldl (fun a e ↦ commit a e.1 e.2) l a

theorem drain (a : Assembly) (owner : NodeId) : Rebinds a (a.drain owner) := by
  rw [Assembly.drain]
  split
  · exact refl a
  · rename_i queue _
    obtain ⟨_, _, hbound⟩ := bindAll a (queue.filter fun e ↦ a.hasSlot e.1)
    dsimp only
    rw [hbound]
    exact ⟨_, _, rfl⟩

theorem bindLeaves (t : NodeTree) (owner : NodeId) (l : List NodeId) (a : Assembly) (i : Nat) :
    Rebinds a (bindLeaves t owner a i l).2 := by
  induction l generalizing a i with
  | nil => exact refl a
  | cons c r ih =>
    rw [Assembly.bindLeaves]
    split
    · exact refl a
    · refine trans ?_ (ih _ _)
      split
      · exact bind _ _ _
      · exact refl a

end Rebinds

variable (a : Assembly) (t : NodeTree)

/-- A node that is announced while a level is open is written down for its end. -/
theorem exists_settle_rebinds (i : NodeId) :
    ∃ announced, Rebinds { a with announced := announced } (a.settle t i).2 ∧
      (a.levelOpen = false → announced = a.announced) := by
  have hannounce : ∃ announced, Rebinds { a with announced := announced } (a.announce t i).2 ∧
      (a.levelOpen = false → announced = a.announced) := by
    rw [announce]
    split
    · exact ⟨_, .refl a, fun _ ↦ rfl⟩
    · exact ⟨_, .refl a, fun _ ↦ rfl⟩
    · split
      · rename_i hopen
        exact ⟨_, .refl _, fun hclosed ↦ absurd (hopen.symm.trans hclosed) (by simp)⟩
      · exact ⟨_, .commit a _ _, fun _ ↦ rfl⟩
  obtain ⟨announced, hrebinds, hclosed⟩ := hannounce
  refine ⟨announced, ?_, hclosed⟩
  rw [settle]
  split
  · rename_i h
    rwa [h] at hrebinds
  · rename_i h
    rw [h] at hrebinds
    exact hrebinds.trans (.drain _ _)

/-- A node that is placed gets a fragment of its own, unless it has one from outside. -/
theorem exists_place_rebinds (i : NodeId) :
    ∃ fragments announced,
      Rebinds { a with fragments := fragments, announced := announced } (a.place t i).2 ∧
        (fragments = a.fragments ∨ ∃ n, fragments = a.fragments.insert i (.container i n)) ∧
        (a.levelOpen = false → announced = a.announced) := by
  rw [place]
  split
  · obtain ⟨announced, hrebinds, hclosed⟩ := a.exists_settle_rebinds t i
    exact ⟨_, announced, hrebinds, .inl rfl, hclosed⟩
  · split
    · exact ⟨_, _, .refl a, .inl rfl, fun _ ↦ rfl⟩
    · rename_i children _
      dsimp only
      obtain ⟨bindings, waiting, hleaves⟩ := Rebinds.bindLeaves t i children { a with
        fragments := a.fragments.insert i (.container i children.length) } 0
      split
      · rename_i hok
        rw [hok] at hleaves
        exact ⟨_, _, ⟨bindings, waiting, hleaves⟩, .inr ⟨_, rfl⟩, fun _ ↦ rfl⟩
      · rename_i a₁ hok
        rw [hok] at hleaves
        obtain ⟨announced, hrebinds, hclosed⟩ := a₁.exists_settle_rebinds t i
        obtain rfl : a₁ = _ := hleaves
        obtain ⟨_, _, hsettle⟩ := hrebinds
        exact ⟨_, announced, ⟨_, _, hsettle⟩, .inr ⟨_, rfl⟩, hclosed⟩

theorem fragments_carryOutAll (l : List (NodeId × List NodeId))
    (s : Assembly × List TemplateError) : (l.foldl carryOut s).1.fragments = s.1.fragments := by
  induction l generalizing s with
  | nil => rfl
  | cons e r ih =>
    rw [List.foldl_cons, ih, carryOut]
    dsimp only
    split
    · rename_i a' hok
      rw [applyOrder] at hok
      dsimp only at hok
      split at hok
      · obtain rfl := Except.ok.inj hok
        exact (Rebinds.bindAll _ _).fragments
      · exact absurd hok (by simp)
    · rfl

theorem fragments_settle (i : NodeId) : (a.settle t i).2.fragments = a.fragments := by
  obtain ⟨_, hrebinds, -⟩ := a.exists_settle_rebinds t i
  exact hrebinds.fragments

theorem fragments_finishLevel : a.finishLevel.2.fragments = a.fragments :=
  (fragments_carryOutAll _ _).trans (Rebinds.commitAll _ _).fragments

/-! ### Fragments after any calls -/

/-- Every fragment opens and closes elements in pairs. -/
def Formed : Prop := ∀ i f, a.fragment? i = some f → Piece.Paired f.pieces

variable {a}

namespace Formed

theorem fragmentOf (h : a.Formed) (i : NodeId) : Piece.Paired (a.fragmentOf i).pieces := by
  rw [Assembly.fragmentOf]
  cases hf : a.fragment? i with
  | none => exact Fragment.paired_leaf i
  | some f => exact h i f hf

theorem of_fragments {a' : Assembly} (h : a.Formed) (heq : a'.fragments = a.fragments) :
    a'.Formed := fun i f hf ↦ h i f (by rwa [fragment?, ← heq])

/-- One more fragment. -/
theorem insert {a' : Assembly} (h : a.Formed) {i : NodeId} {f : Fragment}
    (hf : Piece.Paired f.pieces) (heq : a'.fragments = a.fragments.insert i f) : a'.Formed := by
  intro j g hg
  rw [fragment?, heq, SortedMap.get?_insert] at hg
  split at hg
  · rw [← Option.some.inj hg]
    exact hf
  · exact h j g hg

theorem place (h : a.Formed) (t : NodeTree) (i : NodeId) : (a.place t i).2.Formed := by
  obtain ⟨fragments, _, hrebinds, hfragments, -⟩ := a.exists_place_rebinds t i
  rcases hfragments with rfl | ⟨n, rfl⟩
  · exact h.of_fragments hrebinds.fragments
  · exact h.insert (Fragment.paired_container i n) hrebinds.fragments

/-- **Whatever is called**, fragments are formed. -/
theorem perform (h : a.Formed) (call : Call) : (a.perform call).Formed := by
  cases call with
  | beginLevel => exact h
  | place t i => exact h.place t i
  | replace t i text =>
    exact h.insert (Fragment.paired_ofText text) (fragments_settle _ t i)
  | saveOrder owner order => exact h
  | finishLevel => exact h.of_fragments a.fragments_finishLevel

theorem run (calls : List Call) : (run calls).Formed := by
  induction calls using List.reverseRecOn with
  | nil => exact fun i f hf ↦ absurd hf (by simp [Assembly.run, fragment?, empty])
  | append_singleton calls call ih =>
    rw [run_concat]
    exact ih.perform call

end Formed

end Assembly

/-! ### Walks -/

/-- What a walk meets: a piece, or a slot that cannot be filled. -/
inductive Visit where
  | piece (p : Piece)
  /-- A slot that is bound to nothing. -/
  | unbound (place : Placeholder)
  /-- A slot that is bound to a node on the path. -/
  | back (place : Placeholder)

namespace Visit

/-- The piece that is written: for a slot its marker. -/
def written : Visit → Piece
  | piece p => p
  | unbound place => .raw place.marker
  | back place => .raw place.marker

def unbound? : Visit → Option Placeholder
  | unbound place => some place
  | _ => none

def back? : Visit → Option Placeholder
  | back place => some place
  | _ => none

end Visit

/-- What is written along a walk. -/
structure Expansion.Records (e : Expansion) (vs : List Visit) : Prop where
  pieces : e.pieces = vs.map Visit.written
  unresolved : e.unresolved = vs.filterMap Visit.unbound?
  cycles : e.cycles = vs.filterMap Visit.back?

theorem Expansion.Records.append {e e' : Expansion} {vs vs' : List Visit} (h : e.Records vs)
    (h' : e'.Records vs') : (e.append e').Records (vs ++ vs') where
  pieces := by rw [List.map_append, ← h.pieces, ← h'.pieces]; rfl
  unresolved := by rw [List.filterMap_append, ← h.unresolved, ← h'.unresolved]; rfl
  cycles := by rw [List.filterMap_append, ← h.cycles, ← h'.cycles]; rfl

namespace Assembly

/-- The walk through some pieces of a node's fragment that was reached along a path, the node
included. -/
inductive Walks (a : Assembly) : List NodeId → List Piece → List Visit → Prop
  | nil {path} : Walks a path [] []
  | piece {path p r vs} (hp : ∀ place, p ≠ .slot place) (hr : Walks a path r vs) :
    Walks a path (p :: r) (.piece p :: vs)
  | unbound {path place r vs} (hplace : a.binding? place = none) (hr : Walks a path r vs) :
    Walks a path (.slot place :: r) (.unbound place :: vs)
  | back {path place c r vs} (hplace : a.binding? place = some c) (hc : c ∈ path)
    (hr : Walks a path r vs) : Walks a path (.slot place :: r) (.back place :: vs)
  | filled {path place c r inner vs} (hplace : a.binding? place = some c) (hc : c ∉ path)
    (hinner : Walks a (c :: path) (a.fragmentOf c).pieces inner) (hr : Walks a path r vs) :
    Walks a path (.slot place :: r) (inner ++ vs)

variable {a : Assembly} {path : List NodeId} {ps : List Piece} {vs vs' : List Visit}

namespace Walks

/-- **There is one walk.** -/
theorem unique (h : a.Walks path ps vs) (h' : a.Walks path ps vs') : vs = vs' := by
  induction h generalizing vs' with
  | nil =>
    cases h'
    rfl
  | piece hp _ ih =>
    cases h' with
    | piece _ hr => rw [ih hr]
    | unbound => exact absurd rfl (hp _)
    | back => exact absurd rfl (hp _)
    | filled => exact absurd rfl (hp _)
  | unbound hplace _ ih =>
    cases h' with
    | piece hp => exact absurd rfl (hp _)
    | unbound _ hr => rw [ih hr]
    | back hplace' => exact absurd (hplace.symm.trans hplace') (by simp)
    | filled hplace' => exact absurd (hplace.symm.trans hplace') (by simp)
  | back hplace hc _ ih =>
    cases h' with
    | piece hp => exact absurd rfl (hp _)
    | unbound hplace' => exact absurd (hplace'.symm.trans hplace) (by simp)
    | back _ _ hr => rw [ih hr]
    | filled hplace' hc' =>
      rw [Option.some.inj (hplace.symm.trans hplace')] at hc
      exact absurd hc hc'
  | filled hplace hc _ _ ihinner ih =>
    cases h' with
    | piece hp => exact absurd rfl (hp _)
    | unbound hplace' => exact absurd (hplace'.symm.trans hplace) (by simp)
    | back hplace' hc' =>
      rw [Option.some.inj (hplace'.symm.trans hplace)] at hc'
      exact absurd hc' hc
    | filled hplace' _ hinner hr =>
      obtain rfl := Option.some.inj (hplace.symm.trans hplace')
      rw [ihinner hinner, ih hr]

/-- No slot is written. -/
theorem written_ne_slot (h : a.Walks path ps vs) (place : Placeholder) :
    Piece.slot place ∉ vs.map Visit.written := by
  induction h with
  | nil => exact List.not_mem_nil
  | piece hp _ ih =>
    rw [List.map_cons, List.mem_cons, not_or]
    exact ⟨(hp place).symm, ih⟩
  | unbound _ _ ih => simpa [Visit.written] using ih
  | back _ _ _ ih => simpa [Visit.written] using ih
  | filled _ _ _ _ ihinner ih =>
    rw [List.map_append, List.mem_append, not_or]
    exact ⟨ihinner, ih⟩

/-- **What is written opens and closes what the fragment does**: a slot is filled with pairs. -/
theorem openAfter?_eq (hformed : a.Formed) (h : a.Walks path ps vs) (around : List NodeId) :
    Piece.openAfter? around (vs.map Visit.written) = Piece.openAfter? around ps := by
  induction h generalizing around with
  | nil => rfl
  | piece hp _ ih =>
    rename_i p r vs _
    show Piece.openAfter? around (p :: vs.map Visit.written) = _
    cases p with
    | closing i =>
      rw [Piece.openAfter?, Piece.openAfter?, ih]
    | _ => exact ih _
  | unbound _ _ ih => exact ih around
  | back _ _ _ ih => exact ih around
  | filled _ _ _ _ ihinner ih =>
    rw [List.map_append, Piece.openAfter?_append, ihinner, hformed.fragmentOf]
    exact ih around

end Walks

/-! ### Fuel -/

/-- How many nodes that are bound to slots are not on a path. -/
def room (a : Assembly) (path : List NodeId) : Nat :=
  (a.bindings.values.toFinset \ path.toFinset).card

/-- A node that a walk enters was not on the path. -/
theorem room_cons_lt {place : Placeholder} {c : NodeId} (hplace : a.binding? place = some c)
    (hc : c ∉ path) : a.room (c :: path) < a.room path := by
  have hmem : c ∈ a.bindings.values.toFinset := List.mem_toFinset.2 <|
    List.mem_map.2 ⟨_, SortedMap.mem_entries_iff.2 hplace, rfl⟩
  refine Finset.card_lt_card ⟨fun i hi ↦ ?_, fun hsub ↦ ?_⟩
  · rw [Finset.mem_sdiff, List.mem_toFinset, List.mem_toFinset] at hi ⊢
    exact ⟨hi.1, fun hpath ↦ hi.2 (List.mem_cons_of_mem _ hpath)⟩
  · have hin := hsub (Finset.mem_sdiff.2 ⟨hmem, fun h ↦ hc (List.mem_toFinset.1 h)⟩)
    exact (Finset.mem_sdiff.1 hin).2 (List.mem_toFinset.2 List.mem_cons_self)

theorem room_le_size (a : Assembly) (path : List NodeId) : a.room path ≤ a.bindings.size := by
  have hsub := Finset.card_le_card
    (Finset.sdiff_subset (s := a.bindings.values.toFinset) (t := path.toFinset))
  have hvalues := List.toFinset_card_le a.bindings.values
  rw [SortedMap.values, List.length_map] at hvalues
  exact hsub.trans hvalues

section

variable (t : NodeTree) (root : NodeId) (inner : NodeId → Expansion) {place : Placeholder}
  {c : NodeId}

theorem records_unbound (hplace : a.binding? place = none) :
    (a.expandPiece t root path inner (.slot place)).Records [.unbound place] := by
  rw [expandPiece, hplace]
  exact ⟨rfl, rfl, rfl⟩

theorem records_back (hplace : a.binding? place = some c) (hc : c ∈ path) :
    (a.expandPiece t root path inner (.slot place)).Records [.back place] := by
  rw [expandPiece, hplace]
  dsimp only
  rw [if_pos (List.contains_iff_mem.2 hc)]
  exact ⟨rfl, rfl, rfl⟩

theorem records_filled (hplace : a.binding? place = some c) (hc : c ∉ path)
    (hinner : (inner c).Records vs) :
    (a.expandPiece t root path inner (.slot place)).Records vs := by
  rw [expandPiece, hplace]
  dsimp only
  rw [if_neg fun h ↦ hc (List.contains_iff_mem.1 h)]
  exact ⟨hinner.pieces, hinner.unresolved, hinner.cycles⟩

theorem records_piece {p : Piece} (hp : ∀ place, p ≠ .slot place) :
    (a.expandPiece t root path inner p).Records [.piece p] := by
  cases p with
  | slot place => exact absurd rfl (hp place)
  | _ => exact ⟨rfl, rfl, rfl⟩

end

/-- **Expansion follows a walk**, as long as there is fuel for every node that could be entered. -/
theorem exists_walk (a : Assembly) (t : NodeTree) (root : NodeId) {fuel : Nat}
    {path : List NodeId} (hfuel : a.room path < fuel) (node : NodeId) :
    ∃ vs, a.Walks path (a.fragmentOf node).pieces vs ∧
      (a.expand t root fuel path node).Records vs := by
  induction fuel generalizing path node with
  | zero => exact absurd hfuel (Nat.not_lt_zero _)
  | succ fuel ih =>
    rw [expand]
    generalize (a.fragmentOf node).pieces = ps
    -- from here on by the pieces, each of which may be a slot that is entered with less fuel
    induction ps with
    | nil => exact ⟨[], .nil, ⟨rfl, rfl, rfl⟩⟩
    | cons p r ihr =>
      obtain ⟨vs, hwalk, hrecords⟩ := ihr
      by_cases hslot : ∃ place, p = .slot place
      · obtain ⟨place, rfl⟩ := hslot
        cases hplace : a.binding? place with
        | none =>
          exact ⟨_, .unbound hplace hwalk, (records_unbound t root _ hplace).append hrecords⟩
        | some c =>
          by_cases hc : c ∈ path
          · exact ⟨_, .back hplace hc hwalk, (records_back t root _ hplace hc).append hrecords⟩
          · have hless := room_cons_lt hplace hc
            obtain ⟨inner, hinner, hin⟩ := ih (show a.room (c :: path) < fuel by omega) c
            have hfilled := records_filled t root
              (fun child ↦ a.expand t root fuel (child :: path) child) hplace hc hin
            exact ⟨_, .filled hplace hc hinner hwalk, hfilled.append hrecords⟩
      · have hp : ∀ place, p ≠ .slot place := not_exists.1 hslot
        exact ⟨_, .piece hp hwalk, (records_piece t root _ hp).append hrecords⟩

/-- **Resolution ends and is well formed**, after any calls, for any tree and any root. There is one
walk from the root, and the document is what is written along it: no slot is left, elements open and
close in pairs, and each slot that is met without a node, or with a node on the path, is reported
once and has its marker in its place. -/
theorem resolve_run (calls : List Call) (t : NodeTree) (root : NodeId) :
    ∃ vs, (run calls).Walks [root] ((run calls).fragmentOf root).pieces vs ∧
      (∀ vs', (run calls).Walks [root] ((run calls).fragmentOf root).pieces vs' → vs' = vs) ∧
      ((run calls).resolve t root).root = root ∧
      ((run calls).resolve t root).toExpansion.Records vs ∧
      (∀ place, .slot place ∉ ((run calls).resolve t root).pieces) ∧
      Piece.Paired ((run calls).resolve t root).pieces := by
  have hfuel : (run calls).room [root] < (run calls).bindings.size + 1 := by
    have hle := (run calls).room_le_size [root]
    omega
  obtain ⟨vs, hwalk, hrecords⟩ := exists_walk (run calls) t root hfuel root
  have hpieces : ((run calls).resolve t root).pieces = vs.map Visit.written := hrecords.pieces
  refine ⟨vs, hwalk, fun vs' hwalk' ↦ hwalk'.unique hwalk, rfl, hrecords, fun place ↦ ?_,
    fun around ↦ ?_⟩
  · rw [hpieces]
    exact hwalk.written_ne_slot place
  · rw [hpieces, hwalk.openAfter?_eq (Formed.run calls)]
    exact (Formed.run calls).fragmentOf root around

end Assembly

end ViewCompiler
