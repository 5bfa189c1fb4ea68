import ViewCompiler.Files.Path
import ViewCompiler.Proofs.Text.Words

/-!
# Paths below a base

A path is below a base if its components are those of the base, followed by others that neither go
up nor start at the root (`Path.Below`). What is joined to a base is below it exactly where the
joined path is confined, and `Path.isConfined_iff` says when it is.

Joining is about texts and being below is about components, so the two have to be brought together
over all the places where a slash can stand (`Path.exists_components_join`): the base may be empty,
end with slashes or be one point, and the path may have slashes and points in front.
-/

namespace ViewCompiler

namespace Path

open Component

/-! ### Components -/

/-- One point in front, which is a component. -/
def dotted : List Char → List Component
  | ['.'] => [.current]
  | '.' :: '/' :: _ => [.current]
  | _ => []

/-- The root, for an absolute path. -/
def rooted (cs : List Char) : List Component := if cs.head? == some '/' then [.root] else []

/-- The components between slashes. -/
def named (cs : List Char) : List Component :=
  ((Text.pieces (· == '/') cs).map ofChars).filter (· ≠ .current)

theorem components_eq (path : String) :
    components path = dotted path.toList ++ (rooted path.toList ++ named path.toList) := by
  have hsteps : (steps path).filter (· ≠ .current) = rooted path.toList ++ named path.toList := by
    rw [steps, isAbsolute, rooted, named]
    split <;> rfl
  rw [components, hsteps]
  rfl

theorem ofChars_ne_root (cs : List Char) : ofChars cs ≠ .root := by
  rw [ofChars.eq_def]
  split <;> simp

/-- Only an absolute path has the root among its components. -/
theorem root_mem_iff {path : String} : .root ∈ components path ↔ isAbsolute path = true := by
  have hnamed : .root ∉ named path.toList := fun h ↦ by
    obtain ⟨cs, -, hcs⟩ := List.mem_map.1 (List.mem_filter.1 h).1
    exact ofChars_ne_root cs hcs
  have hdotted : .root ∉ dotted path.toList := by
    rw [dotted.eq_def]
    split <;> simp
  rw [components_eq, List.mem_append, List.mem_append, or_iff_right hdotted, or_iff_left hnamed,
    rooted, isAbsolute]
  split <;> simp [*]

/-- **A path is confined** if it is not absolute and does not go up. -/
theorem isConfined_iff {path : String} :
    isConfined path = true ↔ isAbsolute path = false ∧ .parent ∉ components path := by
  rw [isConfined, Bool.and_eq_true, Bool.not_eq_true', List.all_eq_true]
  refine and_congr_right fun habsolute ↦ ⟨fun h hmem ↦ ?_, fun h c hc ↦ ?_⟩
  · exact absurd (h _ hmem) (by decide)
  · have hroot : c ≠ .root := fun heq ↦ by
      rw [heq, root_mem_iff, habsolute] at hc
      exact absurd hc (by decide)
    have hparent : c ≠ .parent := fun heq ↦ h (heq ▸ hc)
    simp [hroot, hparent]

/-! ### Joining -/

theorem dotted_append {cs : List Char} (hne : cs ≠ []) (ds : List Char) :
    dotted (cs ++ '/' :: ds) = dotted cs := by
  obtain ⟨c, r, rfl⟩ := List.exists_cons_of_ne_nil hne
  by_cases hc : c = '.'
  · subst hc
    cases r with
    | nil => rfl
    | cons d r =>
      by_cases hd : d = '/'
      · subst hd; rfl
      · simp [dotted, hd]
  · simp [dotted, hc]

theorem rooted_append {cs : List Char} (hne : cs ≠ []) (ds : List Char) :
    rooted (cs ++ ds) = rooted cs := by
  obtain ⟨c, r, rfl⟩ := List.exists_cons_of_ne_nil hne
  rfl

theorem named_append (cs ds : List Char) : named (cs ++ '/' :: ds) = named cs ++ named ds := by
  rw [named, Text.pieces_append_cons (by decide), List.map_append, List.filter_append]
  rfl

/-- More components after a slash. -/
theorem components_append {base path : String} (hne : base.toList ≠ []) :
    components (base ++ "/" ++ path) = components base ++ named path.toList := by
  have hjoined : (base ++ "/" ++ path).toList = base.toList ++ '/' :: path.toList := by
    rw [String.toList_append, String.toList_append, List.append_assoc]
    rfl
  rw [components_eq, components_eq, hjoined, dotted_append hne, rooted_append hne, named_append,
    List.append_assoc, List.append_assoc]

/-- What is behind the last slash of a base is behind the base. -/
theorem components_append_of_slash {base path : String} (hbase : base.toList.getLast? = some '/') :
    components (base ++ path) = components base ++ named path.toList := by
  obtain ⟨cs, hcs⟩ := List.getLast?_eq_some_iff.1 hbase
  have hjoined : (base ++ path).toList = cs ++ '/' :: path.toList := by
    rw [String.toList_append, hcs, List.append_assoc]
    rfl
  have hnone : named [] = [] := by decide
  rw [components_eq, components_eq, hjoined, hcs, named_append, named_append, hnone,
    List.append_nil]
  cases cs with
  | nil => rfl
  | cons c cs =>
    rw [dotted_append (List.cons_ne_nil c cs), dotted_append (List.cons_ne_nil c cs),
      rooted_append (List.cons_ne_nil c cs), rooted_append (List.cons_ne_nil c cs),
      List.append_assoc, List.append_assoc]

/-- **A joined path has the components of the base in front.** -/
theorem exists_components_join (base : String) {path : String} (hpath : isAbsolute path = false) :
    ∃ rest, rest ⊆ components path ∧ components (join base path) = components base ++ rest := by
  have hnamed : named path.toList ⊆ components path := by
    rw [components_eq]
    exact fun c hc ↦ List.mem_append_right _ (List.mem_append_right _ hc)
  rw [join, hpath, Bool.false_or]
  split
  · rename_i hempty
    refine ⟨components path, List.Subset.refl _, ?_⟩
    rw [String.isEmpty_iff.1 hempty]
    rfl
  · rename_i hempty
    refine ⟨named path.toList, hnamed, ?_⟩
    split
    · rename_i hslash
      exact components_append_of_slash (by simpa using hslash)
    · refine components_append fun hnil ↦ hempty ?_
      rw [String.isEmpty_iff, ← String.toList_inj, hnil]
      rfl

/-! ### Below a base -/

/-- A path with the components of a base in front and none behind them that leads out of it. -/
def Below (base path : String) : Prop :=
  ∃ rest, components path = components base ++ rest ∧ ∀ c ∈ rest, c ≠ .parent ∧ c ≠ .root

theorem Below.trans {a b c : String} (h : Below a b) (h' : Below b c) : Below a c := by
  obtain ⟨rest, hb, hrest⟩ := h
  obtain ⟨rest', hc, hrest'⟩ := h'
  refine ⟨rest ++ rest', by rw [hc, hb, List.append_assoc], fun d hd ↦ ?_⟩
  exact (List.mem_append.1 hd).elim (hrest d) (hrest' d)

/-- **What is confined is below every base** that it is joined to. -/
theorem below_join (base : String) {path : String} (h : isConfined path = true) :
    Below base (join base path) := by
  obtain ⟨habsolute, hparent⟩ := isConfined_iff.1 h
  obtain ⟨rest, hrest, hjoin⟩ := exists_components_join base habsolute
  refine ⟨rest, hjoin, fun c hc ↦ ⟨fun heq ↦ hparent (heq ▸ hrest hc), fun heq ↦ ?_⟩⟩
  rw [root_mem_iff.1 (heq ▸ hrest hc)] at habsolute
  exact absurd habsolute (by decide)

end Path

end ViewCompiler
