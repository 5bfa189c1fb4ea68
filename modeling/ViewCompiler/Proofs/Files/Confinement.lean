import ViewCompiler.Files.Assets
import ViewCompiler.Files.Output
import ViewCompiler.Proofs.Files.Paths

/-!
# Files stay where they belong

What a program does with a file system is seen in the list of its accesses. `FileSystem.logged` is a
file system with such a list beside its state, and `Logs` says of a program that it comes to the
same over both and makes certain accesses.

* `OutputDirectory.emit` refuses a file that could be put elsewhere without a single access, and
  makes a directory and writes a file below the root otherwise.
* `AssetDirectory.load` and `AssetDirectory.contains` ask where a path leads to, and open what is
  below the base, either by its name or after all links have been followed.

`FileSystem.accesses_confined` puts this together, for a file system of which nothing is known.
-/

namespace ViewCompiler

/-- An access to files. -/
inductive FileAccess where
  | read (path : String)
  | locate (path : String)
  | look (path : String)
  | makeDirectories (path : String)
  | write (path : String) (content : ByteArray)

variable {σ α β : Type}

namespace FileSystem

/-- An operation that is noted when it is carried out. -/
def noting (access : FileAccess) (x : StateM σ α) : StateM (σ × List FileAccess) α := fun s ↦
  ((x s.1).1, (x s.1).2, s.2 ++ [access])

/-- A file system with a list of the accesses to it. -/
def logged (fs : FileSystem (StateM σ)) : FileSystem (StateM (σ × List FileAccess)) where
  read path := noting (.read path) (fs.read path)
  canonical? path := noting (.locate path) (fs.canonical? path)
  present path := noting (.look path) (fs.present path)
  makeDirectories path := noting (.makeDirectories path) (fs.makeDirectories path)
  write path content := noting (.write path content) (fs.write path content)

end FileSystem

/-- A program over a file system comes to the same over the logged one, with some accesses. -/
def Logs (x : StateM σ α) (y : StateM (σ × List FileAccess) α) (s : σ)
    (accesses : List FileAccess) : Prop :=
  ∀ log, y (s, log) = ((x s).1, (x s).2, log ++ accesses)

/-- One step after another. -/
theorem bind_run (x : StateM σ α) (f : α → StateM σ β) (s : σ) :
    (x >>= f) s = f (x s).1 (x s).2 := rfl

namespace Logs

theorem pure (a : α) (s : σ) : Logs (pure a) (pure a) s [] := fun log ↦ by
  rw [List.append_nil]
  rfl

theorem noting (access : FileAccess) (x : StateM σ α) (s : σ) :
    Logs x (FileSystem.noting access x) s [access] := fun _ ↦ rfl

theorem bind {x : StateM σ α} {y : StateM (σ × List FileAccess) α} {f : α → StateM σ β}
    {g : α → StateM (σ × List FileAccess) β} {s : σ} {l r : List FileAccess} (h : Logs x y s l)
    (h' : Logs (f (x s).1) (g (x s).1) (x s).2 r) :
    Logs (x >>= f) (y >>= g) s (l ++ r) := fun log ↦ by
  show (g (y (s, log)).1) (y (s, log)).2 = _
  rw [h log]
  refine (h' (log ++ l)).trans ?_
  rw [List.append_assoc]
  rfl

end Logs

/-! ### Files that are put out -/

namespace EmittedFile

/-- Why a file could be put elsewhere: its directory or its name starts at the root or goes up, or
its name is more or less than one name. -/
inductive LeadsAway (f : EmittedFile) : Prop
  | rooted (h : Path.isAbsolute f.directory = true)
  | upwards (h : .parent ∈ Path.components f.directory)
  | rootedName (h : Path.isAbsolute f.name = true)
  | upwardsName (h : .parent ∈ Path.components f.name)
  | notSingle (h : (Path.components f.name).length ≠ 1)

theorem leadsAway_iff {f : EmittedFile} :
    f.LeadsAway ↔ ¬(Path.isConfined f.directory && Path.isSingle f.name) = true := by
  rw [Path.isSingle, Bool.and_eq_true, Bool.and_eq_true, Path.isConfined_iff, Path.isConfined_iff,
    beq_iff_eq]
  constructor
  · rintro (h | h | h | h | h) ⟨⟨hroot, hup⟩, ⟨hroot', hup'⟩, hone⟩
    · exact absurd h (by rw [hroot]; decide)
    · exact hup h
    · exact absurd h (by rw [hroot']; decide)
    · exact hup' h
    · exact h hone
  · intro h
    by_contra hsafe
    refine h ⟨⟨?_, fun hup ↦ hsafe (.upwards hup)⟩, ⟨?_, fun hup ↦ hsafe (.upwardsName hup)⟩, ?_⟩
    · exact eq_false_of_ne_true fun habsolute ↦ hsafe (.rooted habsolute)
    · exact eq_false_of_ne_true fun habsolute ↦ hsafe (.rootedName habsolute)
    · exact not_not.1 fun hone ↦ hsafe (.notSingle hone)

/-- The directory that a file is put into. -/
def placeIn (f : EmittedFile) (root : String) : String := Path.join root f.directory

/-- The path that a file is written to. -/
def targetIn (f : EmittedFile) (root : String) : String := Path.join (f.placeIn root) f.name

end EmittedFile

namespace OutputDirectory

variable (fs : FileSystem (StateM σ)) (root : String) (f : EmittedFile)

/-- **A file that leads away is refused** before the files are touched. -/
theorem logs_emit_of_leadsAway (h : f.LeadsAway) (s : σ) :
    emit fs ⟨root⟩ f s = (.error (.unsafePath (EmittedFile.joined f.directory f.name)), s) ∧
      Logs (emit fs ⟨root⟩ f) (emit fs.logged ⟨root⟩ f) s [] := by
  have htarget : target? ⟨root⟩ f.directory f.name = none := by
    rw [target?, if_neg (EmittedFile.leadsAway_iff.1 h)]
  unfold emit
  rw [htarget]
  exact ⟨rfl, .pure _ s⟩

/-- **Any other file** is written to its place, once the directory is there. -/
theorem exists_logs_emit (h : ¬f.LeadsAway) (s : σ) :
    ∃ accesses, Logs (emit fs ⟨root⟩ f) (emit fs.logged ⟨root⟩ f) s accesses ∧
      (accesses = [.makeDirectories (f.placeIn root)] ∨ accesses =
        [.makeDirectories (f.placeIn root), .write (f.targetIn root) f.content.toUTF8]) ∧
      ∀ path, (emit fs ⟨root⟩ f s).1 ≠ .error (.unsafePath path) := by
  have htarget : target? ⟨root⟩ f.directory f.name = some (f.placeIn root, f.targetIn root) := by
    rw [target?, if_pos (not_not.1 fun hnot ↦ h (EmittedFile.leadsAway_iff.2 hnot))]
    rfl
  unfold emit
  rw [htarget]
  dsimp only
  have hmake : Logs (fs.makeDirectories (f.placeIn root))
      (fs.logged.makeDirectories (f.placeIn root)) s [.makeDirectories (f.placeIn root)] :=
    .noting _ _ s
  rw [bind_run]
  cases hmade : (fs.makeDirectories (f.placeIn root) s).1 with
  | error e =>
    refine ⟨_, hmake.bind ?_, .inl (List.append_nil _), fun path ↦ nofun⟩
    rw [hmade]
    exact .pure _ _
  | ok _ =>
    have hwrite : Logs (fs.write (f.targetIn root) f.content.toUTF8)
        (fs.logged.write (f.targetIn root) f.content.toUTF8)
        (fs.makeDirectories (f.placeIn root) s).2
        [.write (f.targetIn root) f.content.toUTF8] := .noting _ _ _
    refine ⟨[_] ++ ([_] ++ []), hmake.bind ?_, .inr rfl, ?_⟩
    · rw [hmade]
      refine hwrite.bind ?_
      split <;> exact .pure _ _
    · intro path
      dsimp only
      rw [bind_run]
      generalize (fs.write (f.targetIn root) f.content.toUTF8 _).1 = written
      cases written <;> exact nofun

end OutputDirectory

/-! ### Assets that are opened -/

namespace AssetDirectory

/-- Why an asset could be elsewhere: the path that it is known by starts at the root or goes up. -/
def LeadsAway (path : String) : Prop :=
  Path.isAbsolute (Path.asset path) = true ∨ .parent ∈ Path.components (Path.asset path)

theorem leadsAway_iff {path : String} :
    LeadsAway path ↔ ¬Path.isConfined (Path.asset path) = true := by
  rw [LeadsAway, Path.isConfined_iff, not_and_or, Bool.not_eq_false, not_not]

/-- Behind `./` a path may start at the root. -/
example : LeadsAway " .//etc/hosts" := .inl (by decide)

/-- The path to an asset, with its links. -/
def fullPath (d : AssetDirectory) (path : String) : String := Path.join d.base (Path.asset path)

/-- Where an asset is opened: by the path to it, or at the place below that of the base that the
path leads to. -/
def OpensAt (fs : FileSystem (StateM σ)) (d : AssetDirectory) (path : String) (s : σ)
    (opened : String) : Prop :=
  opened = d.fullPath path ∨ ∃ names below, d.canonicalBase = some names ∧
    (fs.canonical? (d.fullPath path) s).1 = some (names ++ below) ∧
    opened = Path.ofNames (names ++ below)

variable (fs : FileSystem (StateM σ)) (d : AssetDirectory) (path : String)

theorem logs_resolve?_of_leadsAway (h : LeadsAway path) (s : σ) :
    d.resolve? fs path s = (none, s) ∧
      Logs (d.resolve? fs path) (d.resolve? fs.logged path) s [] := by
  unfold resolve?
  dsimp only
  rw [if_neg (leadsAway_iff.1 h), if_neg (leadsAway_iff.1 h)]
  exact ⟨rfl, .pure _ s⟩

/-- **An asset is looked for below the base.** -/
theorem logs_resolve? (h : ¬LeadsAway path) (s : σ) :
    Logs (d.resolve? fs path) (d.resolve? fs.logged path) s [.locate (d.fullPath path)] ∧
      ∀ opened, (d.resolve? fs path s).1 = some opened → d.OpensAt fs path s opened := by
  have hconfined := not_not.1 fun hnot ↦ h (leadsAway_iff.2 hnot)
  have hlocate : Logs (fs.canonical? (d.fullPath path)) (fs.logged.canonical? (d.fullPath path)) s
      [.locate (d.fullPath path)] := .noting _ _ s
  unfold resolve?
  dsimp only
  rw [if_pos hconfined, if_pos hconfined, bind_run, ← fullPath]
  refine ⟨hlocate.bind (r := []) ?_, ?_⟩
  · split <;> exact .pure _ _
  · intro opened hopened
    cases hnames : (fs.canonical? (d.fullPath path) s).1 with
    | none =>
      rw [hnames] at hopened
      exact .inl (Option.some.inj hopened).symm
    | some names =>
      cases hbase : d.canonicalBase with
      | none =>
        rw [hnames, hbase] at hopened
        exact .inl (Option.some.inj hopened).symm
      | some base =>
        rw [hnames, hbase] at hopened
        by_cases hstarts : base.isPrefixOf names = true
        · obtain ⟨below, rfl⟩ := List.isPrefixOf_iff_prefix.1 hstarts
          simp only [hstarts, if_true] at hopened
          exact .inr ⟨base, below, hbase, hnames, (Option.some.inj hopened).symm⟩
        · simp only [hstarts] at hopened
          exact absurd hopened nofun

/-- What comes of looking for an asset: nothing, or one access to what is opened. -/
theorem logs_opening {x : Option String → StateM σ α}
    {y : Option String → StateM (σ × List FileAccess) α} (access : String → FileAccess)
    (hnone : ∀ s, Logs (x none) (y none) s [])
    (hsome : ∀ opened s, Logs (x (some opened)) (y (some opened)) s [access opened])
    (h : ¬LeadsAway path) (s : σ) :
    Logs (d.resolve? fs path >>= x) (d.resolve? fs.logged path >>= y) s
          [.locate (d.fullPath path)] ∧
        (∃ s', (d.resolve? fs path >>= x) s = x none s') ∨
      ∃ opened, d.OpensAt fs path s opened ∧
        Logs (d.resolve? fs path >>= x) (d.resolve? fs.logged path >>= y) s
          [.locate (d.fullPath path), access opened] := by
  obtain ⟨hlogs, hopens⟩ := d.logs_resolve? fs path h s
  cases hresolved : (d.resolve? fs path s).1 with
  | none =>
    refine .inl ⟨hlogs.bind (r := []) ?_, (d.resolve? fs path s).2, ?_⟩
    · rw [hresolved]
      exact hnone _
    · rw [bind_run, hresolved]
  | some opened =>
    refine .inr ⟨opened, hopens opened hresolved, hlogs.bind (r := [access opened]) ?_⟩
    rw [hresolved]
    exact hsome opened _

/-- An asset that could be elsewhere is not opened. -/
theorem logs_load_of_leadsAway (h : LeadsAway path) (s : σ) :
    d.load fs path s = (.error (.outsideRoot path), s) ∧
      Logs (d.load fs path) (d.load fs.logged path) s [] := by
  obtain ⟨hnone, hlogs⟩ := d.logs_resolve?_of_leadsAway fs path h s
  unfold load
  refine ⟨by rw [bind_run, hnone]; rfl, hlogs.bind (r := []) ?_⟩
  rw [hnone]
  exact .pure _ s

theorem logs_contains_of_leadsAway (h : LeadsAway path) (s : σ) :
    d.contains fs path s = (false, s) ∧
      Logs (d.contains fs path) (d.contains fs.logged path) s [] := by
  obtain ⟨hnone, hlogs⟩ := d.logs_resolve?_of_leadsAway fs path h s
  unfold contains
  refine ⟨by rw [bind_run, hnone]; rfl, hlogs.bind (r := []) ?_⟩
  rw [hnone]
  exact .pure _ s

/-- **An asset is read where it is opened**, or not at all. -/
theorem logs_load (h : ¬LeadsAway path) (s : σ) :
    Logs (d.load fs path) (d.load fs.logged path) s [.locate (d.fullPath path)] ∧
        (d.load fs path s).1 = .error (.outsideRoot path) ∨
      ∃ opened, d.OpensAt fs path s opened ∧ Logs (d.load fs path) (d.load fs.logged path) s
        [.locate (d.fullPath path), .read opened] := by
  unfold load
  refine (d.logs_opening fs path .read ?_ ?_ h s).imp_left fun ⟨hlogs, _, hanswer⟩ ↦
    ⟨hlogs, congrArg Prod.fst hanswer⟩
  · exact fun s ↦ .pure _ s
  · intro opened s
    refine Logs.bind (r := []) (.noting (.read opened) (fs.read opened) s) ?_
    cases (fs.read opened s).1 with
    | ok content => exact .pure _ _
    | error e => cases e <;> exact .pure _ _

theorem logs_contains (h : ¬LeadsAway path) (s : σ) :
    Logs (d.contains fs path) (d.contains fs.logged path) s [.locate (d.fullPath path)] ∧
        (d.contains fs path s).1 = false ∨
      ∃ opened, d.OpensAt fs path s opened ∧ Logs (d.contains fs path)
        (d.contains fs.logged path) s [.locate (d.fullPath path), .look opened] := by
  unfold contains
  refine (d.logs_opening fs path .look ?_ ?_ h s).imp_left fun ⟨hlogs, _, hanswer⟩ ↦
    ⟨hlogs, congrArg Prod.fst hanswer⟩
  · exact fun s ↦ .pure _ s
  · exact fun opened s ↦ .noting (.look opened) (fs.present opened) s

end AssetDirectory

/-! ### All accesses -/

/-- Writing a file below a root: it is refused without an access if it leads away, and written to
its place below the root otherwise. -/
structure OutputDirectory.Confined (fs : FileSystem (StateM σ)) (root : String) (f : EmittedFile)
    (s : σ) : Prop where
  refused : f.LeadsAway →
    emit fs ⟨root⟩ f s = (.error (.unsafePath (EmittedFile.joined f.directory f.name)), s) ∧
      Logs (emit fs ⟨root⟩ f) (emit fs.logged ⟨root⟩ f) s []
  below : ¬f.LeadsAway → Path.Below root (f.placeIn root) ∧ Path.Below root (f.targetIn root)
  written : ¬f.LeadsAway →
    ∃ accesses, Logs (emit fs ⟨root⟩ f) (emit fs.logged ⟨root⟩ f) s accesses ∧
      (accesses = [.makeDirectories (f.placeIn root)] ∨ accesses =
        [.makeDirectories (f.placeIn root), .write (f.targetIn root) f.content.toUTF8]) ∧
      ∀ path, (emit fs ⟨root⟩ f s).1 ≠ .error (.unsafePath path)

/-- Looking for an asset and reading it: nothing is accessed if it leads away, and otherwise the
path to it is below the base, and what is opened is this path or a place below that of the base. -/
structure AssetDirectory.Confined (fs : FileSystem (StateM σ)) (d : AssetDirectory) (path : String)
    (s : σ) : Prop where
  refused : LeadsAway path →
    (d.load fs path s = (.error (.outsideRoot path), s) ∧
      Logs (d.load fs path) (d.load fs.logged path) s []) ∧
    d.contains fs path s = (false, s) ∧
      Logs (d.contains fs path) (d.contains fs.logged path) s []
  below : ¬LeadsAway path → Path.Below d.base (d.fullPath path)
  read : ¬LeadsAway path →
    Logs (d.load fs path) (d.load fs.logged path) s [.locate (d.fullPath path)] ∧
        (d.load fs path s).1 = .error (.outsideRoot path) ∨
      ∃ opened, d.OpensAt fs path s opened ∧ Logs (d.load fs path) (d.load fs.logged path) s
        [.locate (d.fullPath path), .read opened]
  looked : ¬LeadsAway path →
    Logs (d.contains fs path) (d.contains fs.logged path) s [.locate (d.fullPath path)] ∧
        (d.contains fs path s).1 = false ∨
      ∃ opened, d.OpensAt fs path s opened ∧ Logs (d.contains fs path)
        (d.contains fs.logged path) s [.locate (d.fullPath path), .look opened]

/-- **No file is accessed outside its directory**, whatever the file system answers. A file is
written below the root, and is refused beforehand exactly if it leads away. An asset is looked for
below the base, and opened there or below the place of the base. The place of the base is found when
the directory of assets is made, and the files may have changed since. -/
theorem FileSystem.accesses_confined (fs : FileSystem (StateM σ)) (root : String) (f : EmittedFile)
    (base path : String) (made s : σ) :
    let d := (AssetDirectory.ofPath fs base made).1
    OutputDirectory.Confined fs root f s ∧
      d.base = base ∧ d.canonicalBase = (fs.canonical? base made).1 ∧
      Logs (AssetDirectory.ofPath fs base) (AssetDirectory.ofPath fs.logged base) made
        [.locate base] ∧
      AssetDirectory.Confined fs d path s := by
  intro d
  refine ⟨⟨fun h ↦ OutputDirectory.logs_emit_of_leadsAway fs root f h s, fun h ↦ ?_,
    fun h ↦ OutputDirectory.exists_logs_emit fs root f h s⟩, rfl, rfl, fun _ ↦ rfl,
    ⟨fun h ↦ ⟨d.logs_load_of_leadsAway fs path h s, d.logs_contains_of_leadsAway fs path h s⟩,
      fun h ↦ Path.below_join _ (not_not.1 fun hnot ↦ h (AssetDirectory.leadsAway_iff.2 hnot)),
      fun h ↦ d.logs_load fs path h s, fun h ↦ d.logs_contains fs path h s⟩⟩
  have hconfined := not_not.1 fun hnot ↦ h (EmittedFile.leadsAway_iff.2 hnot)
  rw [Bool.and_eq_true, Path.isSingle, Bool.and_eq_true] at hconfined
  have hplace : Path.Below root (f.placeIn root) := Path.below_join root hconfined.1
  exact ⟨hplace, hplace.trans (Path.below_join _ hconfined.2.1)⟩

end ViewCompiler
