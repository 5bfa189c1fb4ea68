import Mathlib.Logic.Relation
import ViewCompiler.Convert.Extension
import ViewCompiler.Template.Fragment

/-!
# Extensions that decide on runs

An extension can answer at six hooks and change the context at each of them. `Extension.Obeys` is
about those that act at one hook only, the one before a run is classified, where they may ask for
hosts and answer what a `Policy` allows. A host with no other extensions satisfies `Host.Obeys`; it
may wish to stop at any time. At all other hooks such a host leaves the context as it is
(`Run.exists_notify`).

There are two policies.

* `Policy.decides` : a node is replaced by a text without slot markers, or moved to a host that has
  been asked for. `Extension.DecidesRuns` and `Host.DecidesRuns` say this in full.
* `Policy.moves` : a node is moved to any number at all, which may be its own, that of a node
  inside it or in another document, or that of no node.
-/

namespace ViewCompiler

variable {σ : Type}

/-- Contexts of which the second has come from the first by asking for external hosts. -/
def Context.Requests : Context → Context → Prop :=
  Relation.ReflTransGen fun c c' ↦ ∃ name, c' = (c.externalHost name).2

/-- A host that has been asked for is there. -/
theorem Context.get?_externalHost (c : Context) (name : String) :
    (c.externalHost name).2.hosts.get? name = some (c.externalHost name).1 := by
  rw [externalHost]
  split
  · assumption
  · exact (SortedMap.get?_insert _ _ _ _).trans (if_pos rfl)

/-- What may be answered about a node in a context: a text without slot markers for it, or an
external host to render in. -/
def HookAction.Decides (c : Context) : HookAction → Prop
  | proceed => True
  | replace text => (Fragment.ofText text).slots = []
  | redirect target => ∃ name, c.hosts.get? name = some target

/-- An extension that acts only on nodes whose run is about to be classified. -/
structure Extension.DecidesRuns (e : Extension σ) : Prop where
  /-- At all other hooks it does nothing. -/
  proceeds : ∀ point node (c : Context) (s : σ), point ≠ .beforeClassify →
    (e.onHook point node c s).1 = .proceed ∧ (e.onHook point node c s).2.1 = c
  requests : ∀ node (c : Context) (s : σ),
    c.Requests (e.onHook .beforeClassify node c s).2.1
  decides : ∀ node (c : Context) (s : σ),
    (e.onHook .beforeClassify node c s).1.Decides (e.onHook .beforeClassify node c s).2.1

/-- A host whose extensions act only on nodes whose run is about to be classified. -/
def Host.DecidesRuns (h : Host σ) : Prop := ∀ e ∈ h.extensions, e.DecidesRuns

/-! ### Policies -/

/-- What extensions may answer in a context. What is allowed once stays allowed as more hosts are
asked for, and where a text is allowed nodes are moved to hosts only. -/
structure Policy where
  allows : Context → HookAction → Prop
  proceed : ∀ c, allows c .proceed
  slots : ∀ {c text}, allows c (.replace text) → (Fragment.ofText text).slots = []
  hosts : ∀ {c c' text target}, allows c (.replace text) → allows c' (.redirect target) →
    ∃ name, c'.hosts.get? name = some target
  lasts : ∀ {c c' : Context} {action},
    (∀ name target, c.hosts.get? name = some target → c'.hosts.get? name = some target) →
      allows c action → allows c' action

namespace Policy

/-- Nodes are replaced by texts without slot markers, or moved to hosts. -/
def decides : Policy where
  allows := HookAction.Decides
  proceed _ := trivial
  slots h := h
  hosts _ h := h
  lasts {c c' action} hkeep h := by
    cases action with
    | proceed => trivial
    | replace text => exact h
    | redirect target =>
      obtain ⟨name, hname⟩ := h
      exact ⟨name, hkeep name target hname⟩

/-- Nodes are moved anywhere, and none is replaced. -/
def moves : Policy where
  allows _ action := ∀ text, action ≠ .replace text
  proceed _ _ := by simp
  slots h := absurd rfl (h _)
  hosts h := absurd rfl (h _)
  lasts _ h := h

end Policy

/-- An extension that acts only on nodes whose run is about to be classified, and answers there what
is allowed. -/
structure Extension.Obeys (π : Policy) (e : Extension σ) : Prop where
  /-- At all other hooks it does nothing. -/
  proceeds : ∀ point node (c : Context) (s : σ), point ≠ .beforeClassify →
    (e.onHook point node c s).1 = .proceed ∧ (e.onHook point node c s).2.1 = c
  requests : ∀ node (c : Context) (s : σ),
    c.Requests (e.onHook .beforeClassify node c s).2.1
  allowed : ∀ node (c : Context) (s : σ),
    π.allows (e.onHook .beforeClassify node c s).2.1 (e.onHook .beforeClassify node c s).1

/-- A host whose extensions act only on nodes whose run is about to be classified, and answer there
what is allowed. -/
def Host.Obeys (π : Policy) (h : Host σ) : Prop := ∀ e ∈ h.extensions, e.Obeys π

theorem Host.DecidesRuns.obeys {h : Host σ} (hh : h.DecidesRuns) : h.Obeys .decides := fun e he ↦
  ⟨(hh e he).proceeds, (hh e he).requests, (hh e he).decides⟩

theorem Host.obeys_of_extensions_eq_nil {h : Host σ} (hnil : h.extensions = []) (π : Policy) :
    h.Obeys π := fun e he ↦ by
  rw [hnil] at he
  exact absurd he List.not_mem_nil

namespace Run

variable {π : Policy}

theorem exists_poll (h : Host σ) (r : Run σ) :
    ∃ s, r.poll h = ((h.cancelled r.host).1, ⟨r.context, s⟩) := ⟨_, rfl⟩

theorem exists_ask_of_ne {point : HookPoint} (hpoint : point ≠ .beforeClassify)
    (node : Option NodeId) {es : List (Extension σ)} (hes : ∀ e ∈ es, e.Obeys π) (r : Run σ) :
    ∃ s, ask point node es r = (.proceed, ⟨r.context, s⟩) := by
  induction es generalizing r with
  | nil => exact ⟨r.host, rfl⟩
  | cons e es ih =>
    obtain ⟨hproceed, hcontext⟩ :=
      (hes e List.mem_cons_self).proceeds point node r.context r.host hpoint
    obtain ⟨s, hs⟩ := ih (fun e he ↦ hes e (List.mem_cons_of_mem _ he))
      ⟨r.context, (e.onHook point node r.context r.host).2.2⟩
    refine ⟨s, ?_⟩
    rw [ask]
    simp only [hproceed, hcontext, if_true]
    exact hs

/-- **At all other hooks** nothing happens. -/
theorem exists_dispatch_of_ne {h : Host σ} (hh : h.Obeys π) (point : HookPoint)
    (hpoint : point ≠ .beforeClassify) (node : Option NodeId) (r : Run σ) :
    ∃ s, r.dispatch h point node = (.proceed, ⟨r.context, s⟩) :=
  exists_ask_of_ne hpoint node hh r

theorem exists_notify {h : Host σ} (hh : h.Obeys π) (point : HookPoint)
    (hpoint : point ≠ .beforeClassify) (document : Option String) (node : Option NodeId)
    (r : Run σ) : ∃ s, r.notify h point document node = ⟨r.context, s⟩ := by
  obtain ⟨s, hs⟩ := exists_dispatch_of_ne hh point hpoint node r
  exact ⟨s, by rw [notify, hs]; rfl⟩

theorem exists_ask (node : Option NodeId) {es : List (Extension σ)}
    (hes : ∀ e ∈ es, e.Obeys π) (r : Run σ) :
    ∃ action c s, ask .beforeClassify node es r = (action, ⟨c, s⟩) ∧ r.context.Requests c ∧
      π.allows c action := by
  induction es generalizing r with
  | nil => exact ⟨.proceed, r.context, r.host, rfl, .refl, π.proceed _⟩
  | cons e es ih =>
    have hrequests := (hes e List.mem_cons_self).requests node r.context r.host
    have hallowed := (hes e List.mem_cons_self).allowed node r.context r.host
    rw [ask]
    generalize e.onHook .beforeClassify node r.context r.host = answer at hrequests hallowed
    obtain ⟨action, c, s⟩ := answer
    dsimp only at hrequests hallowed ⊢
    split
    · obtain ⟨action', c', s', hrest, hrequests', hallowed'⟩ :=
        ih (fun e he ↦ hes e (List.mem_cons_of_mem _ he)) ⟨c, s⟩
      exact ⟨action', c', s', hrest, hrequests.trans hrequests', hallowed'⟩
    · exact ⟨action, c, s, rfl, hrequests, hallowed⟩

/-- **Before a run is classified** hosts are asked for, and the answer is allowed. -/
theorem exists_dispatch {h : Host σ} (hh : h.Obeys π) (node : Option NodeId) (r : Run σ) :
    ∃ action c s, r.dispatch h .beforeClassify node = (action, ⟨c, s⟩) ∧
      r.context.Requests c ∧ π.allows c action :=
  exists_ask node hh r

/-! ### No extensions -/

section

variable {h : Host σ} (hnil : h.extensions = [])

include hnil

theorem dispatch_of_nil (point : HookPoint) (node : Option NodeId) (r : Run σ) :
    r.dispatch h point node = (.proceed, r) := by
  rw [dispatch, hnil, ask]

theorem notify_of_nil (point : HookPoint) (document : Option String) (node : Option NodeId)
    (r : Run σ) : r.notify h point document node = r := by
  rw [notify, dispatch_of_nil hnil]
  rfl

end

end Run

end ViewCompiler
