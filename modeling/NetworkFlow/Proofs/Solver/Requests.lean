import NetworkFlow.Proofs.Actions
import NetworkFlow.Proofs.Graph.Keys
import NetworkFlow.Proofs.Reported

/-!
# Requests to a solver

Everything that a caller can ask of a solver is a `Request`: a change of what it is to solve, another
method, a run, or a query. What the accepted changes ask for is a configuration that does not depend
on runs and queries: the last word on every map and on the supplies counts, and a reset is a word on
all of them (`asked`).

## Main results

* `apply_asked`, `apply_asked_of_not_fits`: the configuration that is asked for is the one that the
  setters make, and a change is refused if it is about another graph.
* `after_change`, `after_run`: what requests make of a solver.
* `Configuration.sizes`: an optimal solution has a flow for each arc and a potential for each node.
-/

namespace NetworkFlow

open NetworkFlow.Action

variable {w : Width} {α : Type}

/-- An optimal solution has a flow for each arc and a potential for each node. -/
theorem Configuration.sizes [Cost α] {c : Configuration w α} {fuel : Nat} {method : Method}
    {flows : Array (Word w)} {potentials : Array α}
    (h : (c.solve fuel method).outcome = .ok (.optimal flows potentials)) :
    flows.size = c.arcs ∧ potentials.size = c.nodes := by
  obtain ⟨prepared, -, h⟩ := Logged.outcome_bind_eq_ok.mp h
  cases prepared with
  | none => cases h
  | some p =>
      obtain ⟨outcome, -, h⟩ := Logged.outcome_bind_eq_ok.mp h
      obtain ⟨flow, potential, -, -, -, rfl, rfl⟩ :=
        translate_eq_optimal (Logged.outcome_ofRun_eq_ok.mp h)
      exact ⟨Array.size_ofFn, Array.size_ofFn⟩

namespace Solver

/-- A change goes into the configuration and drops the solution; one that is refused does nothing. -/
theorem run_reconfigure (change : Configuration w α → Except Error (Configuration w α))
    (s : Solver w α) : (reconfigure change).run s = match change s.config with
      | .error cause => (⟨[], .error (.refused cause)⟩, s)
      | .ok c => (⟨[], .ok ()⟩, { s with config := c, solution := none }) := by
  unfold reconfigure
  rw [run_get_bind]
  cases change s.config <;> rfl

/-! ## Changes -/

/-- A change of what a solver is to solve. -/
inductive Change (w : Width) (α : Type) where
  | cost (map : ArcMap α)
  | lower (map : ArcMap (Word w))
  | upper (map : ArcMap (Word w))
  | supply (map : NodeMap (Word w))
  | singleSupply (source target : Node) (amount : Word w)
  | reset

namespace Change

/-- How a change is asked for. -/
def action : Change w α → Action (Solver w α) Unit
  | cost map => setCost map
  | lower map => setLower map
  | upper map => setUpper map
  | supply map => setSupply map
  | singleSupply source target amount => setSingleSupply source target amount
  | reset => Solver.reset

/-- What a change makes of a configuration. -/
def apply (change : Change w α) (c : Configuration w α) : Except Error (Configuration w α) :=
  match change with
  | cost map => c.setCost map
  | lower map => c.setLower map
  | upper map => c.setUpper map
  | supply map => c.setSupply map
  | singleSupply source target amount => c.setSingleSupply source target amount
  | reset => .ok c.reset

theorem action_eq (change : Change w α) : change.action = reconfigure change.apply := by
  cases change <;> rfl

/-- The map of a change is one of the graph, and so are its nodes. -/
def Fits (g : Digraph) : Change w α → Prop
  | cost map => map.graph = g.id
  | lower map | upper map => map.graph = g.id
  | supply map => map.graph = g.id
  | singleSupply source target _ => g.Has source ∧ g.Has target
  | reset => True

instance (g : Digraph) (change : Change w α) : Decidable (change.Fits g) := by
  cases change <;> unfold Fits <;> infer_instance

/-! The word of a change on each part of a configuration, if it has one. -/

/-- The costs: a map of them, or that there is none. -/
def wordOnCost : Change w α → Option (Option (ArcMap α))
  | cost map => some (some map)
  | reset => some none
  | _ => none

/-- The lower bounds: a map of them, or that there is none. -/
def wordOnLower : Change w α → Option (Option (ArcMap (Word w)))
  | lower map => some (some map)
  | reset => some none
  | _ => none

/-- The upper bounds: a map of them, or that there is none. -/
def wordOnUpper : Change w α → Option (Option (ArcMap (Word w)))
  | upper map => some (some map)
  | reset => some none
  | _ => none

/-- The supplies: a map of them, an amount between two nodes of the graph, or that there is none. -/
def wordOnSupply (g : Digraph) : Change w α → Option (Supply g.nodeCount w)
  | supply map => some (.map map)
  | singleSupply source target amount =>
      if h : g.Has source ∧ g.Has target then
        some (.single ⟨source.index, h.1.2⟩ ⟨target.index, h.2.2⟩ amount)
      else none
  | reset => some .zero
  | _ => none

end Change

/-- The last word of some changes on a part of a configuration. -/
def lastWord {β : Type} (word : Change w α → Option β) (changes : List (Change w α)) : Option β :=
  (changes.filterMap word).getLast?

/-- What changes ask for on a graph. -/
def asked (g : Digraph) (changes : List (Change w α)) : Configuration w α where
  graph := g
  cost := (lastWord Change.wordOnCost changes).join
  lower := (lastWord Change.wordOnLower changes).join
  upper := (lastWord Change.wordOnUpper changes).join
  supply := (lastWord (Change.wordOnSupply g) changes).getD .zero

theorem lastWord_concat {β : Type} (word : Change w α → Option β) (changes : List (Change w α))
    (change : Change w α) :
    lastWord word (changes ++ [change]) = (word change).or (lastWord word changes) := by
  unfold lastWord
  rw [List.filterMap_append, List.getLast?_append]
  cases h : word change <;> simp [h]

variable {g : Digraph} {change : Change w α} {changes : List (Change w α)}

/-- A change that is about the graph is accepted and has the last word. -/
theorem apply_asked (h : change.Fits g) :
    change.apply (asked g changes) = .ok (asked g (changes ++ [change])) := by
  unfold asked
  simp only [lastWord_concat]
  cases change with
  | cost map | lower map | upper map | supply map =>
      replace h : map.graph = g.id := h
      simp only [Change.apply, Configuration.setCost, Configuration.setLower, Configuration.setUpper,
        Configuration.setSupply, Configuration.owns, if_pos h]
      rfl
  | singleSupply source target amount =>
      obtain ⟨hsource, htarget⟩ := h
      simp only [Change.apply, Configuration.setSingleSupply, Digraph.check_of_has hsource,
        Digraph.check_of_has htarget, Change.wordOnSupply, dif_pos (And.intro hsource htarget)]
      rfl
  | reset => rfl

/-- A change that is not about the graph is refused. -/
theorem apply_asked_of_not_fits (h : ¬ change.Fits g) :
    ∃ cause, change.apply (asked g changes) = .error cause ∧
      (cause = .foreignIdentity ∨ cause = .indexOutOfRange) := by
  unfold asked
  cases change with
  | cost map | lower map | upper map | supply map =>
      replace h : ¬ map.graph = g.id := h
      refine ⟨.foreignIdentity, ?_, .inl rfl⟩
      simp only [Change.apply, Configuration.setCost, Configuration.setLower, Configuration.setUpper,
        Configuration.setSupply, Configuration.owns, if_neg h]
      rfl
  | singleSupply source target amount =>
      have hcause : ∀ {node : Node} {cause : Error}, g.check node = .error cause →
          cause = .foreignIdentity ∨ cause = .indexOutOfRange := by
        intro node cause hcheck
        rcases Digraph.check_eq_error_iff.mp hcheck with ⟨-, h⟩ | ⟨-, -, h⟩
        · exact .inl h
        · exact .inr h
      simp only [Change.apply, Configuration.setSingleSupply]
      cases hsource : g.check source with
      | error cause => exact ⟨cause, rfl, hcause hsource⟩
      | ok s =>
          cases htarget : g.check target with
          | error cause => exact ⟨cause, rfl, hcause htarget⟩
          | ok t => exact absurd ⟨(Digraph.has_of_check hsource).1, (Digraph.has_of_check htarget).1⟩ h
  | reset => exact absurd trivial h

/-! ## Requests -/

/-- A question about the last run of a solver. -/
inductive Query where
  | verdict
  | solution
  | flow (arc : Arc)
  | flowMap
  | potential (node : Node)
  | totalCost

namespace Query

/-- What a query is answered with. -/
@[reducible] def Answer (w : Width) (α : Type) : Query → Type
  | verdict => Option Verdict
  | solution => Option (Solution w α)
  | flow _ => Word w
  | flowMap => ArcMap (Word w)
  | potential _ | totalCost => α

/-- The answer to a query. -/
def ask [Cost α] (s : Solver w α) : (query : Query) → Except Error (query.Answer w α)
  | verdict => .ok s.verdict
  | solution => .ok s.solution
  | flow arc => s.flow arc
  | flowMap => s.flowMap
  | potential node => s.potential node
  | totalCost => s.totalCost

/-- The answers depend on the configuration and the solution only. -/
theorem ask_congr [Cost α] {s s' : Solver w α} (hconfig : s.config = s'.config)
    (hsolution : s.solution = s'.solution) (query : Query) : query.ask s = query.ask s' := by
  obtain ⟨config, method, solution⟩ := s
  obtain ⟨config', method', solution'⟩ := s'
  cases hconfig
  cases hsolution
  cases query <;> rfl

end Query

/-- What a caller can ask of a solver. -/
inductive Request (w : Width) (α : Type) where
  | change (change : Change w α)
  /-- Another method. An option is set by asking for the same algorithm with that option. -/
  | choose (method : Method)
  | run (fuel : Nat)
  | look (query : Query)

namespace Request

variable [Cost α]

/-- What a request is answered with. -/
@[reducible] def Answer : Request w α → Type
  | .change _ | .choose _ => Unit
  | .run _ => Verdict
  | .look query => query.Answer w α

/-- How a request is answered. -/
def action : (request : Request w α) → Action (Solver w α) request.Answer
  | .change c => c.action
  | .choose method => modify fun s => s.setMethod method
  | .run fuel => Solver.run fuel
  | .look query => do
      let s ← get
      query.ask s

/-- The answer to a request, with what is reported. -/
def answer (request : Request w α) (s : Solver w α) : Logged request.Answer :=
  (request.action.run s).1

/-- The solver after a request. -/
def after (s : Solver w α) (request : Request w α) : Solver w α := (request.action.run s).2

/-- The change that a request is, if it is one that fits the graph. -/
def accepted (g : Digraph) : Request w α → Option (Change w α)
  | .change c => if c.Fits g then some c else none
  | _ => none

/-- The method that a request chooses. -/
def chosen : Request w α → Option Method
  | .choose method => some method
  | _ => none

/-- The request invalidates a solution: it is a run, or a change that is accepted. -/
def Invalidates (g : Digraph) : Request w α → Prop
  | .change c => c.Fits g
  | .run _ => True
  | _ => False

end Request

variable [Cost α]

/-- The solver after requests, made one after the other. -/
def afterAll (s : Solver w α) (requests : List (Request w α)) : Solver w α :=
  requests.foldl Request.after s

/-- The changes among requests that were accepted. -/
def accepted (g : Digraph) (requests : List (Request w α)) : List (Change w α) :=
  requests.filterMap (Request.accepted g)

/-- The method that is in force after requests to a solver that began with another one. -/
def methodAfter (method : Method) (requests : List (Request w α)) : Method :=
  (requests.filterMap Request.chosen).getLast?.getD method

section After

variable {s : Solver w α}

theorem afterAll_append (s : Solver w α) (requests requests' : List (Request w α)) :
    s.afterAll (requests ++ requests') = (s.afterAll requests).afterAll requests' :=
  List.foldl_append

theorem after_change (hconfig : s.config = asked g changes) (h : change.Fits g) :
    Request.after s (.change change) =
      { s with config := asked g (changes ++ [change]), solution := none } := by
  show (change.action.run s).2 = _
  rw [Change.action_eq, run_reconfigure, hconfig, apply_asked h]

/-- A change that is refused leaves the solver as it is. -/
theorem run_change_of_not_fits (hconfig : s.config = asked g changes) (h : ¬ change.Fits g) :
    ∃ cause, (Request.change change).answer s = ⟨[], .error (.refused cause)⟩ ∧
      (cause = .foreignIdentity ∨ cause = .indexOutOfRange) ∧
      Request.after s (.change change) = s := by
  obtain ⟨cause, happly, hcause⟩ := @apply_asked_of_not_fits _ _ _ _ changes h
  have hrun : change.action.run s = (⟨[], .error (.refused cause)⟩, s) := by
    rw [Change.action_eq, run_reconfigure, hconfig, happly]
  exact ⟨cause, congrArg Prod.fst hrun, hcause, congrArg Prod.snd hrun⟩

theorem after_choose (s : Solver w α) (method : Method) :
    Request.after s (.choose method) = { s with method } := rfl

theorem after_look (s : Solver w α) (query : Query) : Request.after s (.look query) = s := rfl

/-- A run leaves the solution that it finds, and none if it fails. -/
theorem after_run (s : Solver w α) (fuel : Nat) : Request.after s (.run fuel) =
    { s with solution := (s.config.solve fuel s.method).outcome.toOption } := by
  show ((run fuel).run s).2 = _
  rw [run_eq]
  obtain ⟨events, fault | solution⟩ := s.config.solve fuel s.method <;> rfl

/-- A request that does not invalidate a solution leaves it, and what is configured. -/
theorem after_of_not_invalidates {request : Request w α} (hconfig : s.config = asked g changes)
    (h : ¬ request.Invalidates g) : (Request.after s request).config = s.config ∧
      (Request.after s request).solution = s.solution := by
  cases request with
  | change change =>
      obtain ⟨-, -, -, hafter⟩ := run_change_of_not_fits hconfig h
      rw [hafter]
      exact ⟨rfl, rfl⟩
  | choose method => exact ⟨rfl, rfl⟩
  | run fuel => exact absurd trivial h
  | look query => exact ⟨rfl, rfl⟩

end After

/-! ## What is configured -/

section Configured

variable {method : Method}

/-- The solver is configured as accepted changes ask for, with the method that was chosen last. -/
structure Configured (method : Method) (g : Digraph) (requests : List (Request w α))
    (s : Solver w α) : Prop where
  config : s.config = asked g (accepted g requests)
  method : s.method = methodAfter method requests

theorem Configured.after {requests : List (Request w α)} {s : Solver w α}
    (h : Configured method g requests s) (request : Request w α) :
    Configured method g (requests ++ [request]) (Request.after s request) := by
  obtain ⟨hconfig, hmethod⟩ := h
  have haccepted : accepted g (requests ++ [request]) =
      accepted g requests ++ (request.accepted g).toList := by
    unfold accepted
    rw [List.filterMap_append]
    cases h : request.accepted g <;> simp [h]
  have hchosen : methodAfter method (requests ++ [request]) =
      request.chosen.getD (methodAfter method requests) := by
    unfold methodAfter
    rw [List.filterMap_append, List.getLast?_append]
    cases h : request.chosen <;> simp [h]
  constructor
  · rw [haccepted]
    cases request with
    | change change =>
        by_cases hfits : change.Fits g
        · simp only [after_change hconfig hfits, Request.accepted, if_pos hfits, Option.toList_some]
        · obtain ⟨-, -, -, hafter⟩ := run_change_of_not_fits hconfig hfits
          simp only [hafter, hconfig, Request.accepted, if_neg hfits, Option.toList_none,
            List.append_nil]
    | run fuel => simp [after_run, hconfig, Request.accepted]
    | choose method' => simp [after_choose, hconfig, Request.accepted]
    | look query => simp [after_look, hconfig, Request.accepted]
  · rw [hchosen]
    cases request with
    | change change =>
        by_cases hfits : change.Fits g
        · simp [after_change hconfig hfits, hmethod, Request.chosen]
        · obtain ⟨-, -, -, hafter⟩ := run_change_of_not_fits hconfig hfits
          simp [hafter, hmethod, Request.chosen]
    | run fuel => simp [after_run, hmethod, Request.chosen]
    | choose method' => rfl
    | look query => simp [after_look, hmethod, Request.chosen]

/-- Whatever is asked of a new solver, it is configured as the accepted changes say. -/
theorem configured_afterAll (method : Method) (g : Digraph) (requests : List (Request w α)) :
    Configured method g requests ((ofGraph method g).afterAll requests) := by
  induction requests using List.reverseRecOn with
  | nil => exact ⟨rfl, rfl⟩
  | append_singleton requests request ih =>
      rw [afterAll_append]
      exact ih.after request

end Configured

end Solver

end NetworkFlow
