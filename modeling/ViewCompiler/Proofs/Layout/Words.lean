import ViewCompiler.Proofs.Layout.Planting
import ViewCompiler.Proofs.Layout.Said
import ViewCompiler.Proofs.Style.Sanitizing
import ViewCompiler.Proofs.Text.Characters

/-!
# Where words come from

What nodes say has been measured: texts, attributes in the source and computed styles of elements
(`BoxMeasure.Words`). On the way blanks are collapsed and taken off, a text may move to the element
around it, and options become labels of a selection, but no character comes up that was not there,
but for the spaces between words. So if every measure of a provider is made of characters that
satisfy some `q`, then so is all that the nodes of a document say (`Ingest.words_document`).
-/

namespace ViewCompiler

open NodeTree Sown

/-- All characters of what a node says satisfy `q`, but for the name of its style. -/
structure Said.Words (q : Char → Prop) (said : Said) : Prop where
  text : ∀ text, said.text = some text → Text.Within q text
  entries : ∀ text ∈ said.entries, Text.Within q text
  attributes : ∀ key text, said.attributes.get? key = some text → Text.Within q text
  family : ∀ text, said.family = some text → Text.Within q text

/-- All characters of what was measured in words satisfy `q`. -/
structure BoxMeasure.Words (q : Char → Prop) (m : BoxMeasure) : Prop where
  text : ∀ text, m.text = some text → Text.Within q text
  attributes : ∀ key text, m.attributes.get? key = some text → Text.Within q text
  style : ∀ property text, m.style.get? property = some text → Text.Within q text

/-- A provider that measures such words only. -/
def Provider.Words (q : Char → Prop) (p : Provider) : Prop :=
  ∀ h m, p.measure h = .ok m → m.Words q

theorem Said.Words.nothing (q : Char → Prop) : Said.nothing.Words q where
  text _ h := absurd h (by simp [Said.nothing])
  entries _ h := absurd h List.not_mem_nil
  attributes _ _ h := absurd h (by simp [Said.nothing])
  family _ h := absurd h (by simp [Said.nothing])

namespace BoxMeasure.Words

variable {q : Char → Prop} {m : BoxMeasure}

theorem ofMap (h : m.Words q) (property text : String)
    (htext : (Style.ofMap m.style).get? property = some text) : Text.Within q text := by
  obtain ⟨property', value', hvalue, rfl⟩ := Style.exists_of_get?_ofMap htext
  exact (h.style property' value' hvalue).trim

theorem textOf (h : m.Words q) (hspace : q ' ') (text : String)
    (htext : Ingest.textOf m = some text) : Text.Within q text := by
  obtain ⟨hcollapsed, -⟩ := Option.filter_eq_some_iff.1 htext
  obtain ⟨whole, hwhole, rfl⟩ := Option.map_eq_some_iff.1 hcollapsed
  exact (h.text whole hwhole).collapse hspace

end BoxMeasure.Words

namespace Ingest

variable {q : Char → Prop} (hspace : q ' ') {t : NodeTree} {s : State}

/-! ### One element -/

include hspace in
theorem words_fill (h : s.tree.AllSay (Said.Words q)) (id : NodeId) (element : Handle)
    {m : BoxMeasure} (hm : m.Words q) : (fill s id element m).tree.AllSay (Said.Words q) := by
  rw [fill]
  dsimp only
  rw [tree_report]
  have hfamily : ∀ text, (Style.ofMap m.style).sanitize.1.get? Style.familyProperty = some text →
      Text.Within q text := fun text htext ↦ hm.ofMap _ text (Style.get?_of_sanitize htext)
  generalize (Style.ofMap m.style).sanitize = sanitized at hfamily
  exact h.modify_of id fun n hn ↦ ⟨hm.textOf hspace, (h id n hn).entries, hm.attributes, hfamily⟩

theorem words_grafted (h : t.AllSay (Said.Words q)) (kind : NodeKind) (tag : String)
    (parent : NodeId) (layoutParent : Option NodeId) :
    (grafted t kind tag parent layoutParent).AllSay (Said.Words q) :=
  (h.alloc (.nothing q) kind tag).attach _ _ _

include hspace

/-- **One element** says what was measured of it. -/
theorem words_meet {p : Provider} (hp : p.Words q) (h : s.tree.AllSay (Said.Words q))
    (task : Task) : (meet p s task).1.tree.AllSay (Said.Words q) := by
  rw [meet]
  split
  · exact (words_grafted h _ _ _ _).modify (fun _ ↦ by rfl) _
  · rename_i m hmeasure
    have hm := hp task.element m hmeasure
    split
    · rw [meetText]
      dsimp only
      split
      · exact h
      · have hgrafted := words_grafted h .text textTag task.parent (some task.layoutParent)
        refine hgrafted.modify_of _ fun n hn ↦ ?_
        obtain ⟨-, hentries, hattributes, -⟩ := hgrafted _ n hn
        refine ⟨fun text htext ↦ ?_, hentries, hattributes, hm.ofMap _⟩
        rw [← Option.some.inj htext]
        cases hwhole : m.text with
        | none => exact Text.Within.collapse (s := "") (fun _ hc ↦ absurd hc (by simp)) hspace
        | some whole => exact (hm.text whole hwhole).collapse hspace
    · have hnode : ∀ run, (elementNode s task m run).tree.AllSay (Said.Words q) := fun run ↦
        words_fill hspace (words_grafted h _ _ _ run) _ _ hm
      rw [meetElement_eq]
      split
      · exact (hnode none).modify (fun _ ↦ by rfl) _
      · exact (hnode none).modify (fun _ ↦ by rfl) _
      · exact hnode _

/-- **The walk through a document.** -/
theorem words_walk {p : Provider} (hp : p.Words q) (fuel : Nat) (tasks : List Task)
    (h : s.tree.AllSay (Said.Words q)) : (walk p fuel s tasks).tree.AllSay (Said.Words q) :=
  walk_keeps_made (I := fun s ↦ s.tree.AllSay (Said.Words q)) (fun s task h _ ↦
    words_meet (s := { s with visited := task.element :: s.visited }) hspace hp h task) fuel tasks h

omit hspace

/-! ### After the walk -/

theorem allSay_atEach {Q : Said → Prop} {change : NodeTree → Node → NodeTree}
    (hchange : ∀ {t} n, t.AllSay Q → (change t n).AllSay Q) (h : t.AllSay Q) (root : NodeId) :
    (atEach change t root).AllSay Q := by
  unfold atEach
  split
  · exact h
  · refine NodeTree.AllSay.foldl (fun t id ht ↦ ?_) _ h
    split
    · exact hchange _ ht
    · exact ht

/-- A text that is taken over is one of another node. -/
theorem words_collapseText (n : Node) (h : t.AllSay (Said.Words q)) :
    (collapseText t n).AllSay (Said.Words q) := by
  rcases collapseText_cases t n with hsame | ⟨only, c, -, hc, hcollapsed⟩
  · rwa [hsame]
  · rw [hcollapsed]
    refine (h.modify_of n.id fun m hm ↦ ?_).modify (fun _ ↦ by rfl) only
    obtain ⟨-, hentries, hattributes, hfamily⟩ := h n.id m hm
    exact ⟨(h only c hc).text, hentries, hattributes, hfamily⟩

/-- The labels of a selection are texts of other nodes. -/
theorem words_gatherOptions (n : Node) (h : t.AllSay (Said.Words q)) :
    (gatherOptions t n).AllSay (Said.Words q) := by
  unfold gatherOptions
  split
  · have hexcluded : ∀ options : List Node, (options.foldl (fun t c ↦
        t.modify c.id fun c ↦ { c with excluded := true }) t).AllSay (Said.Words q) := fun options ↦
      .foldl (fun t c ht ↦ ht.modify (fun _ ↦ by rfl) c.id) options h
    refine (hexcluded _).modify_of n.id fun m hm ↦ ?_
    obtain ⟨htext, -, hattributes, hfamily⟩ := hexcluded _ n.id m hm
    refine ⟨htext, fun text hmem ↦ ?_, hattributes, hfamily⟩
    obtain ⟨c, hc, hctext⟩ := List.mem_filterMap.1 hmem
    obtain ⟨id, -, hget⟩ := List.mem_filterMap.1 (List.mem_filter.1 hc).1
    exact (h id c hget).text text hctext
  · exact h

theorem allSay_bindCompanion {Q : Said → Prop} (root : NodeId) (n : Node) (h : t.AllSay Q) :
    (bindCompanion root t n).AllSay Q := by
  unfold bindCompanion
  split
  · split
    · exact h.modify (fun _ ↦ by rfl) _
    · exact h
  · exact h

/-- **One more document**: its nodes say what was measured. -/
theorem words_document (hspace : q ' ') {p : Provider} (hp : p.Words q)
    {warned warned' : List String} {element : Handle} {report : IngestReport} {t' : NodeTree}
    (h : t.AllSay (Said.Words q))
    (hok : document p t warned element = .ok (report, t', warned')) :
    t'.AllSay (Said.Words q) := by
  rcases document_cases hok with ⟨-, -, rfl, -⟩ | ⟨m, hm, -, -, rfl, -⟩
  · exact h
  · have hroot : (start t warned element m).tree.AllSay (Said.Words q) :=
      words_fill hspace (h.alloc (.nothing q) .root m.tag) _ element (hp element m hm)
    have hwalk := words_walk hspace hp (bound p element) (tasks p t.size t.size element) hroot
    exact allSay_atEach (allSay_bindCompanion _) (allSay_atEach words_gatherOptions
      (allSay_atEach words_collapseText hwalk _) _) _

end Ingest

end ViewCompiler
