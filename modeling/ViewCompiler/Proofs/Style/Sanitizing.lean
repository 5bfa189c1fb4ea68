import ViewCompiler.Proofs.SortedMap
import ViewCompiler.Proofs.Text.Stripping
import ViewCompiler.Style

/-!
# Sanitized styles

A fault of a style is a known property with a value that fails its check (`Style.Fault`). Sanitizing
drops the faults and nothing else, and reports each (`Style.get?_sanitize`,
`Style.mem_errors_sanitize`); a style without faults stays as it is (`Style.sanitize_of_faultless`).
-/

namespace ViewCompiler

namespace Style

/-! ### Values as they were given -/

/-- Values are taken over without the blanks around them. -/
theorem exists_of_get?_ofMap {m : SortedMap String String} {property value : String}
    (h : (ofMap m).get? property = some value) :
    ∃ property' value', m.get? property' = some value' ∧ value = Text.trim value' := by
  rcases SortedMap.mem_of_get?_insertAll h with hmem | hget
  · obtain ⟨⟨property', value'⟩, he, heq⟩ := List.mem_map.1 hmem
    exact ⟨property', value', SortedMap.mem_entries_iff.1 he, ((Prod.mk.inj heq).2).symm⟩
  · exact absurd hget (by simp)

theorem trim_of_get?_ofMap {m : SortedMap String String} {property value : String}
    (h : (ofMap m).get? property = some value) : Text.trim value = value := by
  obtain ⟨_, value', -, rfl⟩ := exists_of_get?_ofMap h
  exact Text.trim_trim value'

theorem ext_get? {s s' : Style} (h : ∀ property, s.get? property = s'.get? property) : s = s' := by
  obtain ⟨m⟩ := s
  obtain ⟨m'⟩ := s'
  exact congrArg Style.mk (SortedMap.ext_get? h)

theorem get?_remove (s : Style) (property property' : String) :
    (s.remove property).get? property' = if property' = property then none else s.get? property' :=
  SortedMap.get?_erase _ _ _

/-! ### What is dropped -/

/-- A property with a value that fails a check of a list. -/
def FaultIn (checks : List (String × (String → Bool))) (s : Style) (property value : String) :
    Prop :=
  s.get? property = some value ∧ ∃ check, (property, check) ∈ checks ∧ check value = false

/-- **A fault**: a known property with a value that fails its check. -/
def Fault (s : Style) (property value : String) : Prop := FaultIn known s property value

theorem nodup_known : (known.map Prod.fst).Nodup := by decide

/-- One check, as it is made in turn. -/
def screen (e : Style × List StyleError) (known : String × (String → Bool)) :
    Style × List StyleError :=
  match e.1.get? known.1 with
  | some v =>
    if known.2 v then e else (e.1.remove known.1, e.2 ++ [.invalidValue known.1 v])
  | none => e

/-- Sanitizing makes the checks of the known properties in turn. -/
theorem sanitize_eq (s : Style) : s.sanitize = known.foldl screen (s, []) := rfl

/-- **One check** drops a value that fails it, and reports it. -/
theorem screen_cases (e : Style × List StyleError) (property : String) (check : String → Bool) :
    (∀ v, e.1.get? property = some v → check v = true) ∧ screen e (property, check) = e ∨
      ∃ v, e.1.get? property = some v ∧ check v = false ∧
        screen e (property, check) = (e.1.remove property, e.2 ++ [.invalidValue property v]) := by
  unfold screen
  split
  · rename_i v hv
    split
    · rename_i hcheck
      exact .inl ⟨fun v' hv' ↦ Option.some.inj (hv.symm.trans hv') ▸ hcheck, rfl⟩
    · rename_i hcheck
      exact .inr ⟨v, hv, Bool.eq_false_iff.2 hcheck, rfl⟩
  · rename_i hnone
    exact .inl ⟨fun v hv ↦ absurd (hnone.symm.trans hv) (by simp), rfl⟩

section Fold

variable {checks : List (String × (String → Bool))} {property value : String}

theorem faultIn_cons {s : Style} {known : String} {check : String → Bool} :
    FaultIn ((known, check) :: checks) s property value ↔
      property = known ∧ s.get? known = some value ∧ check value = false ∨
        FaultIn checks s property value := by
  simp only [FaultIn, List.mem_cons, Prod.mk.injEq]
  refine ⟨?_, ?_⟩
  · rintro ⟨hget, check', ⟨rfl, rfl⟩ | hmem, hcheck⟩
    · exact .inl ⟨rfl, hget, hcheck⟩
    · exact .inr ⟨hget, check', hmem, hcheck⟩
  · rintro (⟨rfl, hget, hcheck⟩ | ⟨hget, check', hmem, hcheck⟩)
    · exact ⟨hget, check, .inl ⟨rfl, rfl⟩, hcheck⟩
    · exact ⟨hget, check', .inr hmem, hcheck⟩

/-- **The checks in turn.** A property is checked once, so that what has been dropped before is
none of the later faults. -/
theorem foldl_screen (hchecks : (checks.map Prod.fst).Nodup) (e : Style × List StyleError) :
    (∀ property value, (checks.foldl screen e).1.get? property = some value ↔
      e.1.get? property = some value ∧ ¬ FaultIn checks e.1 property value) ∧
    ∀ error, error ∈ (checks.foldl screen e).2 ↔ error ∈ e.2 ∨
      ∃ property value, FaultIn checks e.1 property value ∧
        error = .invalidValue property value := by
  induction checks generalizing e with
  | nil => simp [FaultIn]
  | cons known rest ih =>
    obtain ⟨known, check⟩ := known
    rw [List.map_cons, List.nodup_cons] at hchecks
    obtain ⟨hget, herrors⟩ := ih hchecks.2 (screen e (known, check))
    rw [List.foldl_cons]
    rcases screen_cases e known check with ⟨hpasses, hsame⟩ | ⟨v, hv, hfails, hdropped⟩
    · -- the value passes, so the later faults are all there are
      have hcons : ∀ {property value}, FaultIn ((known, check) :: rest) e.1 property value ↔
          FaultIn rest e.1 property value := fun {property value} ↦ by
        rw [faultIn_cons, or_iff_right]
        rintro ⟨-, hknown, hfails⟩
        exact absurd (hpasses value hknown) (by simp [hfails])
      rw [hsame] at hget herrors ⊢
      exact ⟨fun property value ↦ by rw [hget, hcons],
        fun error ↦ by simp only [herrors, hcons]⟩
    · have hother : ∀ {property value}, FaultIn rest (e.1.remove known) property value ↔
          FaultIn rest e.1 property value := fun {property value} ↦ by
        refine and_congr_left fun ⟨check', hmem, _⟩ ↦ ?_
        have hne : property ≠ known := fun heq ↦ hchecks.1 (heq ▸ List.mem_map.2 ⟨_, hmem, rfl⟩)
        rw [get?_remove, if_neg hne]
      rw [hdropped] at hget herrors ⊢
      simp only [hother] at hget herrors
      refine ⟨fun property value ↦ ?_, fun error ↦ ?_⟩
      · rw [hget, get?_remove, faultIn_cons]
        by_cases hknown : property = known
        · subst hknown
          simp only [if_true, reduceCtorEq, false_and, false_iff, not_and, not_not]
          intro hvalue
          obtain rfl := Option.some.inj (hv.symm.trans hvalue)
          exact .inl ⟨trivial, hv, hfails⟩
        · simp [hknown]
      · rw [herrors, List.mem_append, List.mem_singleton, or_assoc]
        refine or_congr_right ⟨?_, ?_⟩
        · rintro (rfl | ⟨property, value, hfault, rfl⟩)
          · exact ⟨known, v, faultIn_cons.2 (.inl ⟨rfl, hv, hfails⟩), rfl⟩
          · exact ⟨property, value, faultIn_cons.2 (.inr hfault), rfl⟩
        · rintro ⟨property, value, hfault, rfl⟩
          rcases faultIn_cons.1 hfault with ⟨rfl, hvalue, -⟩ | hfault
          · exact .inl (by rw [Option.some.inj (hv.symm.trans hvalue)])
          · exact .inr ⟨property, value, hfault, rfl⟩

end Fold

/-- **Sanitizing drops the faults** and nothing else. -/
theorem get?_sanitize (s : Style) (property value : String) :
    s.sanitize.1.get? property = some value ↔
      s.get? property = some value ∧ ¬ s.Fault property value := by
  rw [sanitize_eq]
  exact (foldl_screen nodup_known (s, [])).1 property value

/-- **Each fault is reported.** -/
theorem mem_errors_sanitize (s : Style) (error : StyleError) : error ∈ s.sanitize.2 ↔
    ∃ property value, s.Fault property value ∧ error = .invalidValue property value := by
  rw [sanitize_eq]
  exact ((foldl_screen nodup_known (s, [])).2 error).trans (or_iff_right List.not_mem_nil)

/-- Sanitizing only takes properties away. -/
theorem get?_of_sanitize {s : Style} {property value : String}
    (h : s.sanitize.1.get? property = some value) : s.get? property = some value :=
  ((get?_sanitize s property value).1 h).1

/-- A style in which every known property passes its check. -/
def Faultless (s : Style) : Prop := ∀ property value, ¬ s.Fault property value

theorem faultless_sanitize (s : Style) : s.sanitize.1.Faultless := fun property value hfault ↦
  have h := (get?_sanitize s property value).1 hfault.1
  h.2 ⟨h.1, hfault.2⟩

/-- **Nothing is dropped** where there is no fault. -/
theorem sanitize_of_faultless {s : Style} (h : s.Faultless) : s.sanitize = (s, []) := by
  refine Prod.ext (ext_get? fun property ↦ Option.ext fun value ↦ ?_) ?_
  · rw [get?_sanitize, and_iff_left (h property value)]
  · refine List.eq_nil_iff_forall_not_mem.2 fun error herror ↦ ?_
    obtain ⟨property, value, hfault, -⟩ := (mem_errors_sanitize s error).1 herror
    exact h property value hfault

end Style

end ViewCompiler
