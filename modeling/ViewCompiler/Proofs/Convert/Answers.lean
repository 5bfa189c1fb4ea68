import ViewCompiler.Convert

/-!
# Answers

What extensions answer about nodes is not kept by a conversion, only what comes of it.
`Converter.answers` lists the answers of a conversion: every node that was asked about before its
run was classified, with the first action among the responses of the extensions that is not to
proceed (`Host.answer`). It follows the decisions step by step, so that it can be read off them by
the same induction. That the conversion goes by this action is a fact about it and not part of the
definition (`Run.fst_dispatch`).
-/

namespace ViewCompiler

variable {σ : Type}

namespace HookAction

/-- The text instead of a node. -/
def replacement? : HookAction → Option String
  | replace text => some text
  | _ => none

/-- The node that a node is moved to. -/
def target? : HookAction → Option NodeId
  | redirect target => some target
  | _ => none

theorem replacement?_eq_some_iff {a : HookAction} {text : String} :
    a.replacement? = some text ↔ a = .replace text := by
  cases a <;> simp [replacement?]

theorem target?_eq_some_iff {a : HookAction} {p : NodeId} :
    a.target? = some p ↔ a = .redirect p := by
  cases a <;> simp [target?]

end HookAction

/-! ### What is answered at a hook -/

/-- What extensions respond at a hook, each in the state that the one before it leaves. -/
def Extension.responses (point : HookPoint) (node : Option NodeId) :
    List (Extension σ) → Context → σ → List HookAction
  | [], _, _ => []
  | e :: es, c, s =>
    (e.onHook point node c s).1 ::
      responses point node es (e.onHook point node c s).2.1 (e.onHook point node c s).2.2

/-- The first response of a host's extensions that is not to proceed, if there is one. -/
def Host.answer (h : Host σ) (point : HookPoint) (node : Option NodeId) (r : Run σ) : HookAction :=
  ((Extension.responses point node h.extensions r.context r.host).find? (· ≠ .proceed)).getD
    .proceed

theorem Host.answer_of_nil {h : Host σ} (hnil : h.extensions = []) (point : HookPoint)
    (node : Option NodeId) (r : Run σ) : h.answer point node r = .proceed := by
  rw [answer, hnil]
  rfl

namespace Run

theorem fst_ask (point : HookPoint) (node : Option NodeId) (es : List (Extension σ)) (r : Run σ) :
    (ask point node es r).1 = ((Extension.responses point node es r.context r.host).find?
      (· ≠ .proceed)).getD .proceed := by
  induction es generalizing r with
  | nil => rfl
  | cons e es ih =>
    rw [ask, Extension.responses]
    by_cases hproceed : (e.onHook point node r.context r.host).1 = .proceed
    · rw [List.find?_cons_of_neg (by simp [hproceed])]
      simp only [hproceed, if_true]
      exact ih ⟨(e.onHook point node r.context r.host).2.1,
        (e.onHook point node r.context r.host).2.2⟩
    · rw [List.find?_cons_of_pos (by simp [hproceed]), Option.getD_some]
      simp only [hproceed, if_false]

/-- **A conversion goes by the first response** that is not to proceed. -/
theorem fst_dispatch (h : Host σ) (point : HookPoint) (node : Option NodeId) (r : Run σ) :
    (r.dispatch h point node).1 = h.answer point node r :=
  fst_ask point node h.extensions r

end Run

/-! ### Answers about nodes -/

/-- Nodes with what has been answered about them, the latest first. -/
abbrev Answers := List (NodeId × HookAction)

/-- The answer about a node; nothing is done about a node that has not been asked about. -/
def Answers.about (l : Answers) (n : NodeId) : HookAction := (l.lookup n).getD .proceed

theorem Answers.about_cons (l : Answers) (x : NodeId) (a : HookAction) (n : NodeId) :
    about ((x, a) :: l) n = if n = x then a else about l n := by
  rw [about, List.lookup_cons]
  by_cases h : n = x
  · simp [h]
  · rw [if_neg h, beq_false_of_ne h]
    rfl

theorem Answers.about_eq_proceed {l : Answers} {n : NodeId} (h : n ∉ l.map Prod.fst) :
    l.about n = .proceed := by
  induction l with
  | nil => rfl
  | cons e r ih =>
    rw [List.map_cons, List.mem_cons, not_or] at h
    rw [about_cons, if_neg h.1, ih h.2]

/-- A node that is to be moved has been asked about. -/
theorem Answers.mem_of_target {l : Answers} {n p : NodeId} (hp : (l.about n).target? = some p) :
    n ∈ l.map Prod.fst := Decidable.byContradiction fun hnot ↦ by
  rw [about_eq_proceed hnot] at hp
  exact absurd hp (by simp [HookAction.target?])

/-- The walk from a node upwards, over the nodes above it. It stops at the first node that is moved,
and ends in the host to which that is moved or else in the root. It leads nowhere if it meets a
replaced node on its way. -/
def Answers.walk (l : Answers) : NodeId → List NodeId → Option NodeId
  | n, [] => some ((l.about n).target?.getD n)
  | n, p :: above =>
    match (l.about n).target? with
    | some host => some host
    | none => if (l.about p).replacement?.isSome then none else walk l p above

/-- The root of the document or the host in the output of which a node of the layout is. -/
def Answers.home? (l : Answers) (t : NodeTree) (n : NodeId) : Option NodeId :=
  match t.ancestors n with
  | .ok above => l.walk n above
  | .error _ => none

namespace Decided

/-- The answers about nodes on which is decided one after another. -/
def answersOn (h : Host σ) (layout : LayoutConfig) (name : String) :
    List NodeId → Decided σ → Answers → Answers
  | [], _, l => l
  | parent :: r, d, l =>
    let l := (parent, h.answer .beforeClassify (some parent) d.run) :: l
    match d.decideNode h layout name parent with
    | (.ok (), d) => answersOn h layout name r d l
    | (.error _, _) => l

/-- The answers about the nodes of a document. -/
def answersIn (h : Host σ) (layout : LayoutConfig) (d : Decided σ) (document : DocumentEntry)
    (l : Answers) : Answers :=
  match d.run.poll h with
  | (true, _) => l
  | (false, run) =>
    match run.context.tree.classificationOrder document.root with
    | .error _ => l
    | .ok parents => answersOn h layout document.name parents { d with run := run } l

/-- The answers about the nodes of some documents. -/
def answers (h : Host σ) (layout : LayoutConfig) :
    List DocumentEntry → Decided σ → Answers → Answers
  | [], _, l => l
  | document :: r, d, l =>
    answers h layout r (d.document h layout document) (d.answersIn h layout document l)

end Decided

/-- The answers of a conversion. -/
def Converter.answers (c : Converter σ) (p : Provider) (palette : Palette) (s : σ) : Answers :=
  let r := c.loadImages (c.ingest p palette s)
  Decided.answers c.host c.config.layout r.context.documents (.new r) []

end ViewCompiler
