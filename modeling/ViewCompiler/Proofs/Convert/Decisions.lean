import ViewCompiler.Proofs.Convert.Concluding
import ViewCompiler.Proofs.Convert.Undisturbed

/-!
# The decisions of a conversion

Of its decisions a conversion keeps what the assembly has to know, the orders of output.
`Converter.decisions` lists all of them, in the order in which they are taken over. It follows the
conversion step by step, as `Converter.answers` does for the answers.

Without extensions the decisions are those on the runs of all nodes that are asked about, one run
after another (`Decided.exists_runs_of_settlesAll`). It does not matter for that whether documents
are left out since the conversion is to stop.
-/

namespace ViewCompiler

open NodeTree

variable {σ : Type}

namespace Decided

/-- The decisions on the run of a node. -/
def decisionsOf (layout : LayoutConfig) (t : NodeTree) (parent : NodeId) : List LayoutDecision :=
  match Classify.run layout t parent with
  | .ok (outcome, _) => outcome.decisions
  | .error _ => []

/-- The decisions that are taken over for a node, which may be moved before, and those on a replaced
node, which are none. -/
def decisionsAt (h : Host σ) (layout : LayoutConfig) (d : Decided σ) (parent : NodeId) :
    List LayoutDecision :=
  let (action, run) := d.run.dispatch h .beforeClassify (some parent)
  match action with
  | .proceed => decisionsOf layout run.context.tree parent
  | .replace _ => []
  | .redirect target =>
    match run.context.tree.relocate parent target with
    | .ok t => decisionsOf layout t parent
    | .error _ => decisionsOf layout run.context.tree parent

/-- The decisions for nodes on which is decided one after another. -/
def decisionsOn (h : Host σ) (layout : LayoutConfig) (name : String) :
    List NodeId → Decided σ → List LayoutDecision
  | [], _ => []
  | parent :: r, d =>
    d.decisionsAt h layout parent ++
      match d.decideNode h layout name parent with
      | (.ok (), d) => decisionsOn h layout name r d
      | (.error _, _) => []

/-- The decisions for the nodes of a document. -/
def decisionsIn (h : Host σ) (layout : LayoutConfig) (d : Decided σ) (document : DocumentEntry) :
    List LayoutDecision :=
  match d.run.poll h with
  | (true, _) => []
  | (false, run) =>
    match run.context.tree.classificationOrder document.root with
    | .error _ => []
    | .ok parents => decisionsOn h layout document.name parents { d with run := run }

/-- The decisions for some documents. -/
def decisions (h : Host σ) (layout : LayoutConfig) :
    List DocumentEntry → Decided σ → List LayoutDecision
  | [], _ => []
  | document :: r, d =>
    d.decisionsIn h layout document ++ decisions h layout r (d.document h layout document)

end Decided

/-- The decisions of a conversion. -/
def Converter.decisions (c : Converter σ) (p : Provider) (palette : Palette) (s : σ) :
    List LayoutDecision :=
  let r := c.loadImages (c.ingest p palette s)
  Decided.decisions c.host c.config.layout r.context.documents (.new r)

namespace Decided

/-! ### Decisions without extensions -/

section

variable {h : Host σ} (hnil : h.extensions = []) {layout : LayoutConfig} {d d' : Decided σ}

include hnil

/-- A node on which is decided has its run classified. -/
theorem exists_run_of_decideNode {name : String} {x : NodeId}
    (hok : d.decideNode h layout name x = (.ok (), d')) :
    ∃ o, Classify.run layout d.run.context.tree x = .ok (o, d'.run.context.tree) ∧
      d.decisionsAt h layout x = o.decisions := by
  cases hrun : Classify.run layout d.run.context.tree x with
  | error e =>
    rw [decideNode, Run.dispatch_of_nil hnil] at hok
    dsimp only at hok
    rw [classify, hrun] at hok
    exact absurd (Prod.mk.inj hok).1 (by simp)
  | ok made =>
    obtain ⟨o, t⟩ := made
    obtain ⟨d₁, hnode, rfl⟩ := exists_decideNode_of_run hnil layout name hrun
    obtain ⟨-, rfl⟩ := Prod.mk.inj (hok.symm.trans hnode)
    refine ⟨o, rfl, ?_⟩
    rw [decisionsAt, Run.dispatch_of_nil hnil]
    dsimp only
    rw [decisionsOf, hrun]

/-- Nodes on which is decided have their runs classified one after another. -/
theorem exists_runs_of_decideAll {name : String} {xs : List NodeId}
    (hok : d.decideAll h layout name xs = (.ok (), d')) (l : Answers) :
    ∃ o, Classify.runs layout d.run.context.tree xs = .ok (o, d'.run.context.tree) ∧
      d.decisionsOn h layout name xs = o.decisions ∧
      (d.answersOn h layout name xs l).map Prod.fst = xs.reverse ++ l.map Prod.fst := by
  induction xs generalizing d l with
  | nil =>
    obtain ⟨-, rfl⟩ := Prod.mk.inj hok
    exact ⟨.empty, rfl, rfl, rfl⟩
  | cons x r ih =>
    rw [decideAll] at hok
    split at hok
    · rename_i d₁ hnode
      obtain ⟨o, hrun, hdecisions⟩ := exists_run_of_decideNode hnil hnode
      obtain ⟨o', hruns, hdecisions', hasked⟩ :=
        ih hok ((x, h.answer .beforeClassify (some x) d.run) :: l)
      refine ⟨o.append o', Classify.runs_cons hrun hruns, ?_, ?_⟩
      · rw [decisionsOn, hnode, hdecisions]
        exact congrArg (o.decisions ++ ·) hdecisions'
      · rw [answersOn, hnode]
        dsimp only
        rw [hasked, List.map_cons, List.reverse_cons, List.append_assoc, List.singleton_append]
    · exact absurd (Prod.mk.inj hok).1 (by simp)

/-- **Documents on which is decided** have the runs of all nodes asked about classified one after
another. -/
theorem exists_runs_of_settlesAll {rest : List DocumentEntry}
    (hsettles : SettlesAll h layout rest d) (l : Answers) :
    ∃ xs o, Classify.runs layout d.run.context.tree xs =
        .ok (o, (rest.foldl (document h layout) d).run.context.tree) ∧
      decisions h layout rest d = o.decisions ∧
      (answers h layout rest d l).map Prod.fst = xs.reverse ++ l.map Prod.fst := by
  induction rest generalizing d l with
  | nil => exact ⟨[], .empty, rfl, rfl, rfl⟩
  | cons e r ih =>
    obtain ⟨hfirst, hrest⟩ := hsettles
    -- the runs of the first document, none if it is left out
    have hone : ∃ xs o, Classify.runs layout d.run.context.tree xs =
          .ok (o, (d.document h layout e).run.context.tree) ∧
        d.decisionsIn h layout e = o.decisions ∧
        (d.answersIn h layout e l).map Prod.fst = xs.reverse ++ l.map Prod.fst := by
      rw [Settles] at hfirst
      unfold decisionsIn answersIn document
      obtain ⟨s, hs⟩ := Run.exists_poll h d.run
      rw [hs] at hfirst ⊢
      generalize (h.cancelled d.run.host).1 = cancelled at hfirst ⊢
      cases cancelled with
      | true => exact ⟨[], .empty, rfl, rfl, rfl⟩
      | false =>
        obtain ⟨d', hok⟩ := hfirst rfl
        dsimp only at hok ⊢
        rw [hok]
        rw [decideDocument] at hok
        split at hok
        · exact absurd (Prod.mk.inj hok).1 (by simp)
        · rename_i xs hxs
          dsimp only at hxs ⊢
          rw [hxs]
          obtain ⟨o, hruns⟩ := exists_runs_of_decideAll hnil hok l
          exact ⟨xs, o, hruns⟩
    obtain ⟨xs, o, hruns, hdecisions, hasked⟩ := hone
    obtain ⟨ys, o', hruns', hdecisions', hasked'⟩ := ih hrest (d.answersIn h layout e l)
    refine ⟨xs ++ ys, o.append o', Classify.runs_append hruns hruns', ?_, ?_⟩
    · rw [decisions, hdecisions, hdecisions']
      rfl
    · rw [answers, hasked', hasked, List.reverse_append, List.append_assoc]

end

end Decided

end ViewCompiler
