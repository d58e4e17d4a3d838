import NetworkFlow.BellmanFord
import NetworkFlow.Loop
import NetworkFlow.Problem

/-!
# Cycles and potentials of a residual network

A residual arc is open if it has room. As long as the open arcs hold a cycle of
negative cost, sending along it as much as it takes makes the flow cheaper
(`cancelNegativeCycles`); when none is left, the distances over the open arcs are
potentials that leave no open arc with a negative reduced cost (`potentials`).
-/

namespace NetworkFlow.Residual

variable {n m : Nat} {α : Type} [Scalar α] (p : Problem n m α)

/-- The residual arcs with room, in order. -/
def openArcs (flow : Table Int m) : List (ResidualArc m) :=
  (ResidualArc.all m).filter (0 < p.room flow ·)

/-- The residual arcs with their costs. -/
def costed : CostedArcs n (ResidualArc m) α where
  tail := p.source
  head := p.target
  cost := Problem.residualCost p.cost

/-- Distances over the open arcs, or a cycle of open arcs of negative cost. -/
def relaxation (flow : Table Int m) : Relaxation n (ResidualArc m) α :=
  BellmanFord.run (costed p) p.tolerance (openArcs p flow)

/-- What the distances over the open arcs take. -/
def relaxationOperations (flow : Table Int m) : List (CostOperation α) :=
  (openArcs p flow).flatMap (Problem.priceOperations p.cost) ++
    BellmanFord.runOperations (costed p) p.tolerance (openArcs p flow)

/-- The least room on a list of residual arcs; zero if there are none. -/
def bottleneck (flow : Table Int m) : List (ResidualArc m) → Int
  | [] => 0
  | r :: rest => rest.foldl (fun least r => min least (p.room flow r)) (p.room flow r)

/-- A flow on the way to having no negative cycle, and the cycles cancelled so far. -/
structure Cancelling (m : Nat) where
  flow : Table Int m
  cancelled : Nat

/-- Cancels one negative cycle, or stops if there is none. -/
def cancelOne (s : Cancelling m) : Step (Cancelling m) (Cancelling m) :=
  match relaxation p s.flow with
  | .converged _ => .done s
  | .negativeCycle cycle =>
      let amount := bottleneck p s.flow cycle
      if amount ≤ 0 then .done s
      else
        .next
          { flow := cycle.foldl (fun flow r => sendAlong flow r amount) s.flow
            cancelled := s.cancelled + 1 }

/-- Cancels negative cycles until none is left. -/
def cancelNegativeCycles (fuel : Nat) (flow : Table Int m) :
    Except Interruption (Cancelling m) :=
  iterate fuel (fun s => Scalar.checked (relaxationOperations p s.flow) (cancelOne p s))
    { flow, cancelled := 0 }

/-- Potentials for which no open arc has a negative reduced cost; all zero if a
negative cycle is left. They take what the last look for a cycle has taken. -/
def potentials (flow : Table Int m) : Table α n :=
  match relaxation p flow with
  | .converged dist => dist
  | .negativeCycle _ => .const n 0

end NetworkFlow.Residual
