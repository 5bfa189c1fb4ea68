import ViewCompiler.Proofs.Convert.Lasting
import ViewCompiler.Proofs.Convert.Prepared
import ViewCompiler.Proofs.Resource.Interning

/-!
# Paths of the written files

The files of a conversion are its documents, its tables and its drawables. The main statement is
`Converter.paths_differ`: in the default directories the paths of the files differ exactly if the
names of the documents and hosts lead to different stems. Tables and drawables have directories and
names of their own, and a drawable's name is in its table once.

Nothing keeps the stems of two names apart (`Converter.paths_differ_sameStem`), as a claimed name is
kept apart from those that are taken.
-/

namespace ViewCompiler

open ValueStore

variable {σ : Type}

/-! ### Values to the end of a conversion -/

theorem Context.lasting_values (Q : ValueStore → Prop) :
    Context.Lasting (fun said ↦ said.styleRef = none) fun context ↦ Q context.values :=
  ⟨fun _ _ h ↦ h, fun _ h ↦ h, fun h _ ↦ h⟩

section

variable {Q : ValueStore → Prop} {c : Converter σ}
  (hanswer : ∀ (store : ValueStore) (rs : List Request), Q store → Q (store.answerAll rs).2)
  (hh : c.host.Keeps fun context ↦ Q context.values)

include hanswer in
theorem Context.values_foldl_finalize (d : Dialect) (ids : List NodeId) {context : Context}
    (h : Q context.values) : Q (ids.foldl (Context.finalize d) context).values :=
  List.foldlRecOn (motive := fun context : Context ↦ Q context.values) ids _ h fun context h id _ ↦
    Context.values_finalize context id ▸ hanswer _ _ h

include hanswer hh

theorem Converter.values_assemble {d : Decided σ} (h : Q d.run.context.values) {a : Assembled}
    {r : Run σ} (hok : c.assemble d = (.ok a, r)) : Q r.context.values := by
  unfold assemble at hok
  dsimp only at hok
  split at hok
  · exact absurd (Prod.mk.inj hok).1 (by simp)
  · rename_i rendered hrendered
    split at hok
    · exact absurd (Prod.mk.inj hok).1 (by simp)
    · rename_i assembly d' hassemble
      obtain ⟨-, rfl⟩ := Prod.mk.inj hok
      show Q (d'.run.context.share c.target c.config.sharing rendered).2.values
      rw [Context.values_share, (Decided.assemble_keeps hassemble).2]
      exact (Context.lasting_values Q).notify hh .beforeResourcePass none none
        (Context.values_foldl_finalize hanswer c.target rendered h)

/-- **What requests keep true of the values** is true of them when all documents are assembled. -/
theorem Converter.values_assembled {p : Provider} {palette : Palette} {s : σ}
    (hnew : Q (.new c.slug c.config.values palette)) {a : Assembled} {r : Run σ}
    (hok : c.assembled p palette s = (.ok a, r)) : Q r.context.values := by
  unfold assembled at hok
  dsimp only at hok
  split at hok
  · exact absurd (Prod.mk.inj hok).1 (by simp)
  · exact values_assemble hanswer hh
      (lasting_decided (Context.lasting_values Q) hh p.says_unstyled palette s hnew) hok

omit hanswer

theorem Run.exists_writeTarget (slug : String → String) (d : Dialect)
    (s : List DocumentOutput × Run σ)    (e : Target × Resolution) (h : Q s.2.context.values) :
    ∃ content r, writeTarget c.host slug d s e = (s.1 ++ [⟨e.1.name,
      DocumentOutput.stem slug e.1.name e.1.root, e.1.root, content⟩], r) ∧ Q r.context.values := by
  have hP := Context.lasting_values Q
  have hreported : Q (Context.reportResolution e.1.name e.2 s.2.context).values :=
    hP.reports (fun _ _ ↦ ⟨_, rfl, by simp⟩) _ (hP.reports (fun _ _ ↦ ⟨_, rfl, by simp⟩) _ h)
  have hasked := Context.Lasting.dispatch hh .afterFinalize (some e.1.root)
    (r := s.2.modify (Context.reportResolution e.1.name e.2)) hreported
  rw [writeTarget]
  dsimp only
  generalize (s.2.modify (Context.reportResolution e.1.name e.2)).dispatch c.host .afterFinalize
    (some e.1.root) = answer at hasked
  obtain ⟨action, r⟩ := answer
  cases action with
  | replace text => exact ⟨text, r, rfl, hasked⟩
  | proceed => exact ⟨_, _, rfl, hP.ignore _ _ _ _ hasked⟩
  | redirect target => exact ⟨_, _, rfl, hP.ignore _ _ _ _ hasked⟩

/-- **The documents have the stems of their names**, and writing them stores nothing. -/
theorem Run.values_write (slug : String → String) (d : Dialect) (a : Assembled) {r : Run σ}
    (h : Q r.context.values) : Q (r.write c.host slug d a).2.context.values ∧
      ∀ o ∈ (r.write c.host slug d a).1, o.fileStem = DocumentOutput.stem slug o.name o.root := by
  refine List.foldlRecOn (motive := fun s : List DocumentOutput × Run σ ↦ Q s.2.context.values ∧
    ∀ o ∈ s.1, o.fileStem = DocumentOutput.stem slug o.name o.root) _ (writeTarget c.host slug d)
    (b := ([], r)) ⟨h, fun o ho ↦ absurd ho List.not_mem_nil⟩ fun s hs e _ ↦ ?_
  obtain ⟨content, r, hwritten, hr⟩ := exists_writeTarget hh slug d s e hs.1
  rw [hwritten]
  refine ⟨hr, fun o ho ↦ ?_⟩
  rcases List.mem_append.1 ho with ho | ho
  · exact hs.2 o ho
  · rw [List.mem_singleton.1 ho]

end

/-- What a conversion answers with comes of its assembled documents. -/
theorem Converter.exists_of_convert {c : Converter σ} {p : Provider} {s : σ} {o : ConversionOutput}
    (h : (c.convert p s).1 = .ok o) : ∃ palette a r, c.config.check = .ok palette ∧
      c.assembled p palette s = (.ok a, r) ∧ o = ⟨(r.write c.host c.slug c.target a).1,
        .collect (r.write c.host c.slug c.target a).2.context.values a.styles,
        (r.write c.host c.slug c.target a).2.context.diagnostics, c.config.layoutDir,
        c.config.valuesDir, c.config.drawableDir⟩ := by
  rw [convert] at h
  split at h
  · exact absurd h (by simp)
  · rename_i palette hcheck
    rw [convertWith] at h
    split at h
    · exact absurd h (by simp)
    · rename_i a r hassembled
      exact ⟨palette, a, r, hcheck, hassembled, (Except.ok.inj h).symm⟩

/-! ### Paths -/

/-- A path in a directory. -/
def pathIn (directory name : String) : String := directory ++ "/" ++ name

theorem pathIn_injective (directory : String) : Function.Injective (pathIn directory) :=
  fun _ _ h ↦ String.append_right_inj _ |>.1 h

/-- Directories that differ in their first letters have no path in common. -/
theorem pathIn_ne {n : Nat} {directory directory' : String} (hle : n ≤ directory.toList.length)
    (hle' : n ≤ directory'.toList.length)
    (hne : directory.toList.take n ≠ directory'.toList.take n) (name name' : String) :
    pathIn directory name ≠ pathIn directory' name' := fun h ↦ by
  have htake := congrArg (fun path : String ↦ path.toList.take n) h
  simp only [pathIn, String.toList_append, List.append_assoc, List.take_append_of_le_length hle,
    List.take_append_of_le_length hle'] at htake
  exact hne htake

theorem EmittedFile.path_eq {directory : String} (hne : directory.isEmpty = false)
    (hend : Text.dropEnd (· == '/') directory.toList = directory.toList) (name content : String) :
    (EmittedFile.mk directory name content).path = pathIn directory name := by
  rw [path, hne, joined, hend, String.ofList_toList]
  rfl

/-! ### Names in a directory -/

namespace ResourceTables

/-- Each table has its own name. -/
theorem nodup_valueFiles (t : ResourceTables) : (t.valueFiles.map Prod.fst).Nodup := by
  have hfile : ∀ (present : Bool) (name content : String),
      ((if present then [(name, content)] else []).map Prod.fst).Sublist [name] :=
    fun present name content ↦ by
      cases present
      · exact List.nil_sublist _
      · exact List.Sublist.refl _
  refine List.Nodup.sublist ?_ (by decide : (["strings.xml"] ++ ["arrays.xml"] ++ ["colors.xml"] ++
    ["dimens.xml"] ++ ["fonts.xml"] ++ ["styles.xml"] : List String).Nodup)
  rw [valueFiles]
  simp only [List.map_append]
  exact ((((((hfile _ _ _).append (hfile _ _ _)).append (hfile _ _ _)).append
    (hfile _ _ _)).append (hfile _ _ _)).append (hfile _ _ _))

/-- A drawable has at most one file. -/
theorem drawableFiles_sublist (t : ResourceTables) : (t.drawableFiles.map Prod.fst).Sublist
    ((t.drawables.map Prod.fst).map fun name ↦ name ++ ".xml") := by
  rw [drawableFiles]
  induction t.drawables with
  | nil => exact List.nil_sublist _
  | cons e r ih =>
    obtain ⟨name, drawable⟩ := e
    rw [List.filterMap_cons, List.map_cons, List.map_cons]
    dsimp only
    cases drawable.xml? with
    | none => exact ih.cons _
    | some xml => exact ih.cons_cons _

theorem nodup_drawableFiles {t : ResourceTables} (h : (t.drawables.map Prod.fst).Nodup) :
    (t.drawableFiles.map Prod.fst).Nodup :=
  (h.map fun _ _ heq ↦ String.append_left_inj _ |>.1 heq).sublist t.drawableFiles_sublist

end ResourceTables

/-- **In the default directories** only documents can have the same path. -/
theorem ConversionOutput.nodup_paths_iff {o : ConversionOutput}
    (hlayout : o.layoutDir = "res/layout") (hvalues : o.valuesDir = "res/values")
    (hdrawable : o.drawableDir = "res/drawable")
    (hdrawables : (o.tables.drawables.map Prod.fst).Nodup) :
    (o.files.map EmittedFile.path).Nodup ↔ (o.documents.map DocumentOutput.fileStem).Nodup := by
  have hpaths : o.files.map EmittedFile.path =
      ((o.documents.map DocumentOutput.fileStem).map fun stem ↦
        pathIn "res/layout" (stem ++ ".xml")) ++
      (o.tables.valueFiles.map Prod.fst).map (pathIn "res/values") ++
      (o.tables.drawableFiles.map Prod.fst).map (pathIn "res/drawable") := by
    rw [files, hlayout, hvalues, hdrawable]
    simp only [List.map_append, List.map_map]
    refine congrArg₂ _ (congrArg₂ _ ?_ ?_) ?_
    all_goals
      refine List.map_congr_left fun e _ ↦ ?_
      exact EmittedFile.path_eq (by decide) (by decide) _ _
  have hstems : (fun stem ↦ pathIn "res/layout" (stem ++ ".xml")).Injective := fun _ _ h ↦
    String.append_left_inj _ |>.1 (pathIn_injective _ h)
  have hapart : ∀ {f g : String → String} (l l' : List String), (∀ a b, f a ≠ g b) →
      List.Disjoint (l.map f) (l'.map g) := fun l l' hne path hf hg ↦ by
    obtain ⟨a, -, rfl⟩ := List.mem_map.1 hf
    obtain ⟨b, -, heq⟩ := List.mem_map.1 hg
    exact hne a b heq.symm
  -- the letter after the first slash tells the directories apart
  have hother : ∀ a b, pathIn "res/values" a ≠ pathIn "res/drawable" b :=
    pathIn_ne (n := 5) (by decide) (by decide) (by decide)
  have hvalue : ∀ a b, pathIn "res/layout" (a ++ ".xml") ≠ pathIn "res/values" b := fun a b ↦
    pathIn_ne (n := 5) (by decide) (by decide) (by decide) _ b
  have hdraw : ∀ a b, pathIn "res/layout" (a ++ ".xml") ≠ pathIn "res/drawable" b := fun a b ↦
    pathIn_ne (n := 5) (by decide) (by decide) (by decide) _ b
  rw [hpaths, List.append_assoc, List.nodup_append', List.nodup_append',
    List.nodup_map_iff hstems]
  have hfiles := ResourceTables.nodup_drawableFiles hdrawables
  exact and_iff_left ⟨⟨o.tables.nodup_valueFiles.map (pathIn_injective _),
    hfiles.map (pathIn_injective _), hapart _ _ hother⟩,
    List.disjoint_append_right.2 ⟨hapart _ _ hvalue, hapart _ _ hdraw⟩⟩

/-! ### The conversion -/

/-- A store as requests leave it. -/
def ValueStore.Reached (s : ValueStore) : Prop :=
  ∃ slug config palette calls, s = ((new slug config palette).answerAll calls).2

namespace Converter

/-- **Only documents overwrite each other.** In the default directories the paths of all files
differ exactly if the names of the written documents and hosts lead to different stems. Extensions
may do what they like, as long as they store values by requests only. -/
theorem paths_differ (c : Converter σ) (p : Provider) (s : σ)
    (hh : c.host.Keeps fun context ↦ context.values.Reached)
    (hlayout : c.config.layoutDir = "res/layout") (hvalues : c.config.valuesDir = "res/values")
    (hdrawable : c.config.drawableDir = "res/drawable") {o : ConversionOutput}
    (hok : (c.convert p s).1 = .ok o) :
    (o.files.map EmittedFile.path).Nodup ↔
      (o.documents.map fun d ↦ DocumentOutput.stem c.slug d.name d.root).Nodup := by
  obtain ⟨palette, a, r, -, hassembled, rfl⟩ := exists_of_convert hok
  have hanswer : ∀ (store : ValueStore) (rs : List Request), store.Reached →
      (store.answerAll rs).2.Reached := fun store rs ⟨slug, config, palette, calls, hstore⟩ ↦
    ⟨slug, config, palette, calls ++ rs, by rw [answerAll_append, hstore]⟩
  -- the drawables are named by a store that has answered requests, to the end of the conversion
  have hreached := values_assembled hanswer hh ⟨_, _, _, [], rfl⟩ hassembled
  obtain ⟨⟨slug, config, palette, calls, hstore⟩, hstems⟩ :=
    Run.values_write hh c.slug c.target a hreached
  rw [ConversionOutput.nodup_paths_iff hlayout hvalues hdrawable, List.map_congr_left hstems]
  refine (ResourceTables.perm_names _).nodup_iff.2 ?_
  rw [hstore]
  exact ((Kept.new slug config palette).answerAll calls).names .drawable

end Converter

/-- Two documents with names that differ in more than the words. -/
def Provider.sameStem : Provider :=
  let element : ProvidedElement := ⟨.ok { BoxMeasure.empty with tag := "div" }, []⟩
  .ofElements [⟨"Login Screen", some 0⟩, ⟨"login-screen", some 1⟩] #[element, element]

/-- Both documents are written to the same path. -/
theorem Converter.paths_differ_sameStem :
    (plain.host.Keeps fun context ↦ context.values.Reached) ∧
      plain.config.layoutDir = "res/layout" ∧ plain.config.valuesDir = "res/values" ∧
      plain.config.drawableDir = "res/drawable" ∧
      ∃ o, (plain.convert .sameStem ()).1 = .ok o ∧
        o.documents.map DocumentOutput.name = ["Login Screen", "login-screen"] ∧
        ¬(o.files.map EmittedFile.path).Nodup := by
  have hkeeps : plain.host.Keeps fun context ↦ context.values.Reached :=
    Host.keeps_of_extensions_eq_nil rfl _
  have hdocuments : (plain.convert .sameStem ()).1.toOption.map (fun o ↦
      (o.documents.map DocumentOutput.name,
        o.documents.map fun d ↦ DocumentOutput.stem plain.slug d.name d.root)) =
          some (["Login Screen", "login-screen"], ["login_screen", "login_screen"]) := by
    decide +kernel
  obtain ⟨o, hsome, hlabels⟩ := Option.map_eq_some_iff.1 hdocuments
  obtain ⟨hnames, hstems⟩ := Prod.mk.inj hlabels
  have hok : (plain.convert .sameStem ()).1 = .ok o := by
    generalize (plain.convert .sameStem ()).1 = result at hsome
    cases result with
    | error e => exact absurd hsome (by simp [Except.toOption])
    | ok o' => exact congrArg _ (Option.some.inj hsome)
  refine ⟨hkeeps, rfl, rfl, rfl, o, hok, hnames, fun hnodup ↦ ?_⟩
  have hdiffer := (paths_differ plain .sameStem () hkeeps rfl rfl rfl hok).1 hnodup
  rw [hstems] at hdiffer
  exact absurd hdiffer (by decide)

end ViewCompiler
