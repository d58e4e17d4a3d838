import NetworkFlow.CapacityScaling.Solve
import NetworkFlow.Configuration
import NetworkFlow.CostScaling.Solve
import NetworkFlow.NetworkSimplex.Solve

/-!
# Solvers

A `Solver` holds a configuration, a method and the solution of its last run.
Changing the configuration drops the solution, and so does the start of a run; a
change that is refused leaves the solver as it was. The queries answer from the
solution of the last run, and only if it was optimal.
-/

namespace NetworkFlow

/-- What a run found out about the configured problem. -/
inductive Solution (w : Width) (α : Type) where
  | infeasible
  | unbounded
  | optimal (flows : Array (Word w)) (potentials : Array α)

namespace Solution

variable {w : Width} {α : Type}

/-- The verdict of a solution. -/
def verdict : Solution w α → Verdict
  | infeasible => .infeasible
  | unbounded => .unbounded
  | optimal .. => .optimal

/-- The flows by number of the arc; none unless the verdict is optimal. -/
def flows : Solution w α → Array (Word w)
  | optimal flows _ => flows
  | _ => #[]

/-- The potentials by number of the node; none unless the verdict is optimal. -/
def potentials : Solution w α → Array α
  | optimal _ potentials => potentials
  | _ => #[]

end Solution

/-- Solves a finite problem by a method. -/
def Method.solve {n m : Nat} {α : Type} [Scalar α] (method : Method) (fuel : Nat)
    (p : Problem n m α) : Logged (Outcome n m α) :=
  match method with
  | .networkSimplex rule => NetworkSimplex.solve fuel p rule
  | .costScaling alpha => CostScaling.solve fuel p alpha
  | .capacityScaling factor => CapacityScaling.solve fuel p factor

namespace Configuration

variable {w : Width} {α : Type} [Cost α]

/-- The flow of an arc in the caller's type: its lower bound is added back and the sum
is narrowed. -/
def restoreFlow (lower flow : Int) : Word w := Amount.toWord (flow + lower)

/-- The answer to the configured problem that an engine's answer to the finite one means.
Flows with their lower bounds added back must be amounts. -/
def translate {n m : Nat} (p : Problem n m (Cost.Wide α)) :
    Outcome n m (Cost.Wide α) → Except Interruption (Solution w α)
  | .infeasible => .ok .infeasible
  | .unbounded => .ok .unbounded
  | .feasible flow potential =>
      if p.unbounded then .ok .unbounded
      else if ∀ a : Fin m, Width.bits64.Fits (flow[a] + p.lower[a]) then
        .ok <| .optimal
          (Array.ofFn fun a : Fin m => restoreFlow p.lower[a] flow[a])
          (Array.ofFn fun v : Fin n => Cost.narrow potential[v])
      else .error .overflow

/-- What an optimal solution has been made of. -/
theorem translate_eq_optimal {n m : Nat} {p : Problem n m (Cost.Wide α)}
    {o : Outcome n m (Cost.Wide α)} {flows : Array (Word w)} {potentials : Array α}
    (h : translate p o = .ok (.optimal flows potentials)) :
    ∃ flow potential, o = .feasible flow potential ∧ p.unbounded = false ∧
      (∀ a : Fin m, Width.bits64.Fits (flow[a] + p.lower[a])) ∧
      flows = (Array.ofFn fun a : Fin m => restoreFlow p.lower[a] flow[a]) ∧
      potentials = Array.ofFn fun v : Fin n => Cost.narrow potential[v] := by
  cases o with
  | infeasible => cases h
  | unbounded => cases h
  | feasible flow potential =>
      simp only [translate] at h
      split at h
      · cases h
      · split at h <;> cases h
        exact ⟨flow, potential, rfl, by simpa using ‹¬ p.unbounded = true›, ‹_›, rfl, rfl⟩

/-- Prepares the problem, solves it by a method and translates the answer back. -/
def solve (c : Configuration w α) (fuel : Nat) (method : Method) : Logged (Solution w α) := do
  match ← c.prepare with
  | none => return .infeasible
  | some p =>
      let outcome ← method.solve fuel p
      translate p outcome

end Configuration

/-- A configured problem with the solution of the last run. -/
structure Solver (w : Width) (α : Type) where
  config : Configuration w α
  method : Method
  solution : Option (Solution w α) := none

namespace Solver

variable {w : Width} {α : Type}

/-- A solver of a graph without any map. -/
def ofGraph (method : Method) (graph : Digraph) : Solver w α where
  config := { graph }
  method := method

/-- The algorithm of a solver. -/
def algorithm (s : Solver w α) : Algorithm := s.method.algorithm

/-- Changes the method; the solution of the last run stays. -/
def setMethod (s : Solver w α) (method : Method) : Solver w α := { s with method }

/-- Takes over a changed configuration and drops the solution. -/
def reconfigure (change : Configuration w α → Except Error (Configuration w α)) :
    Action (Solver w α) Unit := do
  let s ← get
  let config ← change s.config
  set { s with config := config, solution := none }

/-- Asks for costs. -/
def setCost (map : ArcMap α) : Action (Solver w α) Unit := reconfigure (·.setCost map)

/-- Asks for lower bounds. -/
def setLower (map : ArcMap (Word w)) : Action (Solver w α) Unit := reconfigure (·.setLower map)

/-- Asks for upper bounds. -/
def setUpper (map : ArcMap (Word w)) : Action (Solver w α) Unit := reconfigure (·.setUpper map)

/-- Asks for supplies. -/
def setSupply (map : NodeMap (Word w)) : Action (Solver w α) Unit :=
  reconfigure (·.setSupply map)

/-- Asks for an amount that leaves one node and enters another one. -/
def setSingleSupply (source target : Node) (amount : Word w) : Action (Solver w α) Unit :=
  reconfigure (·.setSingleSupply source target amount)

/-- Drops every map and the solution. -/
def reset : Action (Solver w α) Unit := reconfigure fun c => .ok c.reset

/-- Solves the configured problem. -/
def run [Cost α] (fuel : Nat) : Action (Solver w α) Verdict := do
  modify fun s => { s with solution := none }
  let s ← get
  let solution ← s.config.solve fuel s.method
  Action.report (.solved s.algorithm solution.verdict s.config.nodes s.config.arcs)
  set { s with solution := some solution }
  return solution.verdict

/-- The verdict of the last run. -/
def verdict (s : Solver w α) : Option Verdict := s.solution.map (·.verdict)

/-- The flows and potentials of the last run, if it was optimal. -/
def optimal (s : Solver w α) : Except Error (Array (Word w) × Array α) :=
  match s.solution with
  | some (.optimal flows potentials) => .ok (flows, potentials)
  | _ => .error .notSolved

/-- The element of an array, or the refusal of its number. -/
def elementAt {β : Type} (xs : Array β) (index : Nat) : Except Error β :=
  match xs[index]? with
  | some x => .ok x
  | none => .error .indexOutOfRange

/-- The flow on an arc. -/
def flow (s : Solver w α) (arc : Arc) : Except Error (Word w) := do
  let a ← s.config.graph.check arc
  let (flows, _) ← s.optimal
  elementAt flows a

/-- The flows of all arcs. -/
def flowMap (s : Solver w α) : Except Error (ArcMap (Word w)) := do
  let (flows, _) ← s.optimal
  let g := s.config.graph
  (g.keys .arc).zip flows.toList |>.foldlM
    (fun map (arc, flow) => map.set arc flow) (KeyedMap.ofGraph g .arc default)

/-- The potential of a node. -/
def potential (s : Solver w α) (node : Node) : Except Error α := do
  let v ← s.config.graph.check node
  let (_, potentials) ← s.optimal
  elementAt potentials v

/-- Adds the cost of an amount to a sum, unless that leaves the range. -/
def addCost {β : Type} [Scalar β] (sum cost : β) (amount : Int) : Except Error β :=
  match (Scalar.mul? cost (Scalar.ofAmount amount)).bind (Scalar.add? sum) with
  | some sum => .ok sum
  | none => .error .arithmeticOverflow

/-- The cost of the flow. -/
def totalCost [Cost α] (s : Solver w α) : Except Error α := do
  let (flows, _) ← s.optimal
  let total ← flows.toList.zipIdx.foldlM
    (fun sum (flow, a) =>
      addCost sum (Cost.widen (s.config.costAt a)) (Amount.ofWord flow))
    (0 : Cost.Wide α)
  return Cost.narrow total

end Solver

end NetworkFlow
