import NetworkFlow.CostScaling.Refine
import NetworkFlow.MaxFlow
import NetworkFlow.Residual

/-!
# Cost scaling

Starting from any flow that meets the supplies, phase after phase makes it
epsilon-optimal for an epsilon that shrinks by a constant factor. The costs are
scaled by one more than the number of nodes, so that for whole numbers a flow that
is optimal up to an epsilon of one is optimal. Whatever is left, for other
numbers, a last pass removes by cancelling negative cycles; it also finds the
potentials.
-/

namespace NetworkFlow.CostScaling

variable {n m : Nat} {α : Type} [Scalar α]

/-- The costs times one more than the number of nodes, unless one leaves the range. -/
def scaledCosts (p : Problem n m α) : Except Error (Table α m) :=
  p.cost.mapM fun c =>
    match Scalar.mul? c (Scalar.ofCount (n + 1)) with
    | some scaled => .ok scaled
    | none => .error .arithmeticOverflow

/-- The epsilon after `epsilon`; whole numbers stop at one. -/
def nextEpsilon (alpha : Nat) (epsilon : α) : α :=
  let next := epsilon / Scalar.ofCount (max alpha 2)
  if Scalar.integral α ∧ next < 1 then 1 else next

/-- A flow between two phases, the epsilon of the last one and the number of phases. -/
structure Phase (n m : Nat) (α : Type) where
  state : State n m α
  epsilon : α
  count : Nat

/-- One phase. The last one is the first whose epsilon is not above `finest`. -/
def phaseStep (p : Scaled n m α) (fuel alpha : Nat) (finest : α) (s : Phase n m α) :
    Except Interruption (Step (Phase n m α) (Option (Phase n m α))) := do
  Scalar.inRange [CostOperation.div s.epsilon (Scalar.ofCount (max alpha 2))]
  let epsilon := nextEpsilon alpha s.epsilon
  match ← refine p fuel epsilon s.state with
  | none => return .done none
  | some state =>
      let s := { state, epsilon, count := s.count + 1 }
      if epsilon ≤ finest then return .done (some s) else return .next s

/-- All phases, from a feasible flow; nothing if a node gets stuck. -/
def phases (p : Scaled n m α) (fuel alpha : Nat) (largest : α) (flow : Table Int m) :
    Except Interruption (Option (Phase n m α)) :=
  iterate fuel (phaseStep p fuel alpha (Scalar.finest largest))
    { state :=
        { flow
          potential := .const n 0
          excess := .const n 0
          current := .const n 0
          active := [] }
      epsilon := largest
      count := 0 }

/-- The flow after all phases, if no node gets stuck; without costs it stays as it is. -/
def scaledFlow (fuel : Nat) (p : Problem n m α) (alpha : Nat) (flow : Table Int m) :
    Logged (Option (Table Int m)) := do
  let scaledCost ← scaledCosts p
  Scalar.inRange (Scalar.magnitudeOperations scaledCost.toList)
  let largest := Scalar.maxMagnitude 0 scaledCost.toList
  if 0 < largest then
    let scaled : Scaled n m α := { p with rows := p.rows, scaledCost }
    match ← Logged.ofRun (phases scaled fuel alpha largest flow) with
    | none => return none
    | some last =>
        Logged.report (.phasesDone last.count)
        return some last.state.flow
  else return some flow

/-- A flow of least cost with potentials that prove it, by cost scaling. -/
def solve (fuel : Nat) (p : Problem n m α) (alpha : Nat) : Logged (Outcome n m α) := do
  let some flow ← feasibleFlow fuel p | return .infeasible
  let some flow ← scaledFlow fuel p alpha flow | return .infeasible
  let last ← Logged.ofRun (Residual.cancelNegativeCycles p fuel flow)
  if 0 < last.cancelled then
    Logged.report (.cyclesCancelled last.cancelled)
  return .feasible last.flow (Residual.potentials p last.flow)

end NetworkFlow.CostScaling
