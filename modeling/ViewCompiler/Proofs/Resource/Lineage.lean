import ViewCompiler.Proofs.Trail
import ViewCompiler.Resource.Sharing

/-!
# Lineages of styles

A style names its parent, and the list of a style with all its ancestors is found by name. The
look-up `Sharing.chain` guards itself against loops with the names seen so far and a bound on its
steps. `Sharing.Lineage` says the same without either: a list of styles in which each is the one
found under the name that its predecessor gives, down to one without a parent. Lineages survive
further styles at the end of the list (`Sharing.Lineage.append`), since the first style with a name
is the one that is found.

Not all styles have lineages. Where they come together in some other way a name may be given twice,
a parent may be the name of no style, and parents may lead round in a loop. Parents are links from
name to name, and the names that the look-up finds are a trail along these
(`Sharing.chain_eq_filterMap`), which ends in any case because only names of styles lead on. The
styles with these names are as much of a lineage as there is without a name coming twice
(`Sharing.Chained`). Where the names in a lineage differ it is all of it
(`Sharing.Lineage.chain_eq`).
-/

namespace ViewCompiler

namespace Sharing

/-- The first of some styles that has a name. -/
def named? (styles : List StyleEntry) (name : String) : Option StyleEntry :=
  styles.find? fun e ↦ e.name == name

/-- A style with all its ancestors, the narrowest first. -/
inductive Lineage (styles : List StyleEntry) : String → List StyleEntry → Prop
  /-- A style without a parent. -/
  | last {name : String} {e : StyleEntry} (found : named? styles name = some e)
      (orphan : e.parent = none) : Lineage styles name [e]
  /-- A style in front of the lineage of its parent. -/
  | cons {name parent : String} {e : StyleEntry} {l : List StyleEntry}
      (found : named? styles name = some e) (child : e.parent = some parent)
      (above : Lineage styles parent l) : Lineage styles name (e :: l)

theorem mem_of_named? {styles : List StyleEntry} {name : String} {e : StyleEntry}
    (h : named? styles name = some e) : e ∈ styles :=
  List.mem_of_find?_eq_some h

theorem name_of_named? {styles : List StyleEntry} {name : String} {e : StyleEntry}
    (h : named? styles name = some e) : e.name = name := by
  simpa using List.find?_some h

theorem named?_append {styles : List StyleEntry} {name : String} {e : StyleEntry}
    (h : named? styles name = some e) (more : List StyleEntry) :
    named? (styles ++ more) name = some e := by
  rw [named?, List.find?_append]
  exact Option.or_eq_some_iff.2 (.inl h)

/-- A new name is found where it has been put. -/
theorem named?_append_self {styles : List StyleEntry} {e : StyleEntry}
    (h : ∀ e' ∈ styles, e'.name ≠ e.name) : named? (styles ++ [e]) e.name = some e := by
  have hnone : named? styles e.name = none := by
    rw [named?, List.find?_eq_none]
    intro e' he'
    simpa using h e' he'
  rw [named?, List.find?_append]
  rw [named?] at hnone
  simp [hnone]

namespace Lineage

variable {styles : List StyleEntry} {name : String} {l : List StyleEntry}

/-- **Further styles change no lineage.** -/
theorem append (h : Lineage styles name l) (more : List StyleEntry) :
    Lineage (styles ++ more) name l := by
  induction h with
  | last found orphan => exact .last (named?_append found more) orphan
  | cons found child _ ih => exact .cons (named?_append found more) child ih

theorem subset (h : Lineage styles name l) : l ⊆ styles := by
  induction h with
  | last found _ => simpa using mem_of_named? found
  | cons found _ _ ih =>
    intro e he
    rcases List.mem_cons.1 he with rfl | he
    · exact mem_of_named? found
    · exact ih he

/-- A lineage starts with the style that has its name. -/
theorem exists_head (h : Lineage styles name l) :
    ∃ e r, l = e :: r ∧ e ∈ styles ∧ e.name = name := by
  cases h with
  | last found => exact ⟨_, _, rfl, mem_of_named? found, name_of_named? found⟩
  | cons found => exact ⟨_, _, rfl, mem_of_named? found, name_of_named? found⟩

theorem mem_names (h : Lineage styles name l) : name ∈ styles.map StyleEntry.name := by
  obtain ⟨e, -, -, he, rfl⟩ := h.exists_head
  exact List.mem_map_of_mem he

end Lineage

variable {s : Sharing} {name : String} {names : List String}

/-! ### Names and their styles -/

/-- The parent that is given by the first style with a name, if there is such a style. -/
def parent? (s : Sharing) (name : String) : Option (Option String) :=
  (s.style? name).map StyleEntry.parent

theorem name_of_style? {e : StyleEntry} (h : s.style? name = some e) : e.name = name :=
  name_of_named? h

theorem style?_eq_none_iff : s.style? name = none ↔ ∀ e ∈ s.styles, e.name ≠ name := by
  simp [style?, List.find?_eq_none]

theorem parent?_eq_none_iff : s.parent? name = none ↔ s.style? name = none :=
  Option.map_eq_none_iff

theorem parent?_of_style? {e : StyleEntry} (h : s.style? name = some e) :
    s.parent? name = some e.parent := by
  rw [parent?, h, Option.map_some]

/-- The styles found under some names have these names. -/
theorem map_name_filterMap (h : ∀ n ∈ names, s.parent? n ≠ none) :
    (names.filterMap s.style?).map StyleEntry.name = names := by
  induction names with
  | nil => rfl
  | cons n names ih =>
    obtain ⟨hn, hnames⟩ := List.forall_mem_cons.1 h
    obtain ⟨e, he⟩ := Option.ne_none_iff_exists'.1 (mt parent?_eq_none_iff.2 hn)
    rw [List.filterMap_cons_some he, List.map_cons, name_of_style? he, ih hnames]

/-- Each of them is the one that is found under its name. -/
theorem style?_of_mem_filterMap {e : StyleEntry} (h : e ∈ names.filterMap s.style?) :
    s.style? e.name = some e := by
  obtain ⟨n, -, hn⟩ := List.mem_filterMap.1 h
  rwa [name_of_style? hn]

/-! ### The chain -/

/-- **The bound of the look-up is not reached.** -/
theorem chainFrom_eq_filterMap {seen : List String} {ending : TrailEnd String}
    (h : Trail s.parent? seen name names ending) {fuel : Nat} (hfuel : names.length ≤ fuel) :
    s.chainFrom (fuel + 1) seen name = names.filterMap s.style? := by
  induction h generalizing fuel with
  | @met seen name old =>
    rw [chainFrom]
    cases he : s.style? name with
    | none => rfl
    | some e => simp [name_of_style? he, old]
  | missing _ unknown =>
    rw [chainFrom, parent?_eq_none_iff.1 unknown]
    rfl
  | top new last =>
    obtain ⟨e, he, hparent⟩ := Option.map_eq_some_iff.1 last
    rw [chainFrom, he]
    simp [name_of_style? he, new, hparent, he]
  | step new link _ ih =>
    obtain ⟨fuel, rfl⟩ : ∃ n, fuel = n + 1 := ⟨fuel - 1, by simp at hfuel; omega⟩
    obtain ⟨e, he, hparent⟩ := Option.map_eq_some_iff.1 link
    rw [chainFrom, he, List.filterMap_cons_some he, ← ih (Nat.le_of_succ_le_succ hfuel)]
    simp [name_of_style? he, new, hparent]

/-- Only the names of styles lead on. -/
theorem mem_names_of_parent? (h : s.parent? name ≠ none) :
    name ∈ s.styles.map StyleEntry.name := by
  obtain ⟨e, he⟩ := Option.ne_none_iff_exists'.1 (mt parent?_eq_none_iff.2 h)
  exact List.mem_map.2 ⟨e, mem_of_named? he, name_of_style? he⟩

/-- **The look-up finds the styles on a trail.** -/
theorem chain_eq_filterMap {ending : TrailEnd String}
    (h : Trail s.parent? [] name names ending) : s.chain name = names.filterMap s.style? :=
  chainFrom_eq_filterMap h (by simpa using h.length_le fun _ ↦ mem_names_of_parent?)

/-- **The look-up comes to an end**, whatever the styles are. -/
theorem exists_trail_chain (s : Sharing) (name : String) : ∃ names ending,
    Trail s.parent? [] name names ending ∧ s.chain name = names.filterMap s.style? := by
  obtain ⟨names, ending, h⟩ :=
    exists_trail (fun _ ↦ mem_names_of_parent?) .nil (List.nil_subset _) name
  exact ⟨names, ending, h, chain_eq_filterMap h⟩

namespace Lineage

variable {l : List StyleEntry}

/-- A lineage is found again under its names. -/
theorem filterMap_style? (h : Lineage s.styles name l) :
    (l.map StyleEntry.name).filterMap s.style? = l := by
  induction h with
  | last found _ =>
    obtain rfl := name_of_named? found
    exact List.filterMap_cons_some found
  | cons found _ _ ih =>
    obtain rfl := name_of_named? found
    rw [List.map_cons, List.filterMap_cons_some (show s.style? _ = some _ from found), ih]

/-- **The names in a lineage are a trail**, if they differ. -/
theorem trail (h : Lineage s.styles name l) {seen : List String}
    (hnames : (l.map StyleEntry.name).Nodup) (hseen : ∀ n ∈ l.map StyleEntry.name, n ∉ seen) :
    Trail s.parent? seen name (l.map StyleEntry.name) .top := by
  induction h generalizing seen with
  | last found orphan =>
    obtain rfl := name_of_named? found
    refine .top (hseen _ List.mem_cons_self) ?_
    rw [parent?_of_style? found, orphan]
  | cons found child _ ih =>
    obtain rfl := name_of_named? found
    rw [List.map_cons, List.nodup_cons] at hnames
    rw [List.map_cons, List.forall_mem_cons] at hseen
    refine .step hseen.1 (by rw [parent?_of_style? found, child]) (ih hnames.2 fun n hn ↦ ?_)
    rw [List.mem_cons, not_or]
    exact ⟨fun heq ↦ hnames.1 (heq ▸ hn), hseen.2 n hn⟩

/-- **The look-up finds the lineage.** -/
theorem chain_eq (h : Lineage s.styles name l) (hnames : (l.map StyleEntry.name).Nodup) :
    s.chain name = l :=
  (chain_eq_filterMap (h.trail hnames (by simp))).trans h.filterMap_style?

end Lineage

/-! ### Any list of styles -/

/-- **A style with its ancestors, as far as they go.** -/
structure Chained (s : Sharing) (name : String) (chain : List StyleEntry) : Prop where
  /-- At the start is the first style with the name. -/
  first : chain.head? = s.style? name
  /-- After a style comes the first one with the name that it gives as its parent. -/
  parents : chain.IsChain fun e e' ↦ ∃ p, e.parent = some p ∧ s.style? p = some e'
  /-- No name comes twice. -/
  nodup : (chain.map StyleEntry.name).Nodup
  /-- The last style has no parent, or one that is the name of no style or of one that has come. -/
  ends : ∀ e ∈ chain.getLast?, e.parent = none ∨ ∃ p, e.parent = some p ∧
    (s.style? p = none ∨ p ∈ chain.map StyleEntry.name)

/-- **A trail of names is a chain of styles.** -/
theorem chained_of_trail {ending : TrailEnd String} (h : Trail s.parent? [] name names ending) :
    Chained s name (names.filterMap s.style?) := by
  have hnames := map_name_filterMap h.known
  refine ⟨?_, ?_, by rw [hnames]; exact h.nodup.1, fun e he ↦ ?_⟩
  · cases h with
    | met old => exact absurd old List.not_mem_nil
    | missing _ unknown => exact (parent?_eq_none_iff.1 unknown).symm
    | top _ last =>
      obtain ⟨e, he, -⟩ := Option.map_eq_some_iff.1 last
      rw [List.filterMap_cons_some he, List.head?_cons, he]
    | step _ link _ =>
      obtain ⟨e, he, -⟩ := Option.map_eq_some_iff.1 link
      rw [List.filterMap_cons_some he, List.head?_cons, he]
  · have hchain := h.isChain
    rw [← hnames, List.isChain_map] at hchain
    refine hchain.imp_of_mem_imp fun e e' he he' hlink ↦ ⟨e'.name, ?_, style?_of_mem_filterMap he'⟩
    rw [parent?_of_style? (style?_of_mem_filterMap he)] at hlink
    exact Option.some.inj hlink
  · have hmem := List.mem_of_getLast? he
    have hparent := parent?_of_style? (style?_of_mem_filterMap hmem)
    cases hp : e.parent with
    | none => exact .inl rfl
    | some p =>
      rw [hp] at hparent
      have hname : e.name ∈ names := hnames ▸ List.mem_map_of_mem hmem
      refine .inr ⟨p, rfl, ?_⟩
      rw [hnames, ← parent?_eq_none_iff]
      exact (h.link_cases hname hparent).imp_right fun hp ↦ hp.resolve_left List.not_mem_nil

/-! ### Look-up through the chain -/

theorem lookup_attributes_eq_none_iff {e : StyleEntry} {key : String} :
    e.attributes.lookup key = none ↔ key ∉ e.attributes.map Prod.fst := by
  simp only [List.lookup_eq_none_iff, List.mem_map, not_exists, not_and, bne_iff_ne, ne_eq]
  exact forall₂_congr fun _ _ ↦ not_congr eq_comm

/-- **Look-up is safe in any list of styles.** The names in the chain of a style are a trail along
parents, which ends without a bound on its steps, and the chain is the style with its ancestors as
far as they go. It is empty exactly if no style has the name. An attribute has the value that it has
in the first style of the chain that carries it, and none exactly if no style of the chain carries
it. -/
theorem looks_up_any_styles (s : Sharing) (name : String) :
    (∃ ending, Trail s.parent? [] name ((s.chain name).map StyleEntry.name) ending) ∧
      Chained s name (s.chain name) ∧
      (s.chain name = [] ↔ ∀ e ∈ s.styles, e.name ≠ name) ∧
      ∀ key, (s.resolve? name key = none ↔
          ∀ e ∈ s.chain name, key ∉ e.attributes.map Prod.fst) ∧
        ∀ v, s.resolve? name key = some v ↔ ∃ before e after,
          s.chain name = before ++ e :: after ∧
            (∀ e' ∈ before, key ∉ e'.attributes.map Prod.fst) ∧
            e.attributes.lookup key = some v := by
  obtain ⟨names, ending, htrail, hchain⟩ := s.exists_trail_chain name
  have hchained := hchain ▸ chained_of_trail htrail
  refine ⟨⟨ending, ?_⟩, hchained, ?_, fun key ↦ ⟨?_, fun v ↦ ?_⟩⟩
  · rw [hchain, map_name_filterMap htrail.known]
    exact htrail
  · rw [← List.head?_eq_none_iff, hchained.first, style?_eq_none_iff]
  · rw [resolve?, List.findSome?_eq_none_iff]
    simp only [lookup_attributes_eq_none_iff]
  · rw [resolve?, List.findSome?_eq_some_iff]
    simp only [lookup_attributes_eq_none_iff]
    constructor
    · rintro ⟨before, e, after, hsplit, hv, hbefore⟩
      exact ⟨before, e, after, hsplit, hbefore, hv⟩
    · rintro ⟨before, e, after, hsplit, hbefore, hv⟩
      exact ⟨before, e, after, hsplit, hv, hbefore⟩

-- a loop of parents, and a second style with one of the names
example :
    let s : Sharing := ⟨[⟨"Card", some "Base", [("width", "1dp")]⟩,
      ⟨"Base", some "Card", [("height", "2dp")]⟩, ⟨"Card", none, [("height", "3dp")]⟩],
      .empty, .empty⟩
    (s.chain "Card").map StyleEntry.name = ["Card", "Base"] ∧
      s.resolve? "Card" "height" = some "2dp" := by
  decide

end Sharing

end ViewCompiler
