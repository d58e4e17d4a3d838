import NetworkFlow.Registry.Object

/-!
# Runs apart from the registry

A `RunJob` is a copy of everything a run of a solver needs, so that the registry can
change while the run goes on. Executing it makes a `CompletedRun`, which the registry
takes back.
-/

namespace NetworkFlow

/-- A copy of what a run needs. -/
structure RunJob where
  solver : Handle
  /-- The revision of the solver that was copied. -/
  revision : Nat
  algorithm : Algorithm
  flowType : ValueType
  costType : ValueType
  graph : Digraph
  cost : Option (AnyMap .arc)
  lower : Option (AnyMap .arc)
  upper : Option (AnyMap .arc)
  supply : Option (AnyMap .node)

/-- A run that has ended. -/
structure CompletedRun where
  solver : Handle
  revision : Nat
  result : Except Fault RunResult

namespace RunJob

/-- Uses an optional map, read at its type. -/
def useMap {σ β : Type} {kind : KeyKind} (map : Option (AnyMap kind))
    (read : AnyMap kind → Except Error β) (use : β → Action σ Unit) : Action σ Unit :=
  match map with
  | none => return ()
  | some map => do
      let typed ← read map
      use typed

/-- Gives a solver the maps of a job and runs it. -/
def runTyped (job : RunJob) (fuel : Nat) (w : Width) (t : ValueType) :
    Action (Solver w t.Value) RunResult := do
  useMap job.cost (·.ofType t) Solver.setCost
  useMap job.lower (·.ofWidth w) Solver.setLower
  useMap job.upper (·.ofWidth w) Solver.setUpper
  useMap job.supply (·.ofWidth w) Solver.setSupply
  let verdict ← Solver.run fuel
  let s ← get
  let flows := (s.solution.map (·.flows)).getD #[]
  return { verdict, flows := flows.map Amount.ofWord }

/-- Solves a job with flows of a given width. -/
def solve (job : RunJob) (fuel : Nat) (w : Width) : Logged RunResult :=
  ((job.runTyped fuel w job.costType).run
    (Solver.ofGraph (.ofAlgorithm job.algorithm) job.graph)).1

/-- The result of a job; flows must be integers. -/
def result (job : RunJob) (fuel : Nat) : Logged RunResult :=
  match job.flowType with
  | .int => job.solve fuel .bits32
  | .long => job.solve fuel .bits64
  | .double => .refuse .kindMismatch

/-- Runs a job to its end. -/
def execute (job : RunJob) (fuel : Nat) : Logged CompletedRun :=
  let run := job.result fuel
  ⟨run.events, .ok { solver := job.solver, revision := job.revision, result := run.outcome }⟩

end RunJob

end NetworkFlow
