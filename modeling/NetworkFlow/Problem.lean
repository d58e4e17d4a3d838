import NetworkFlow.Network
import NetworkFlow.Scalar

/-!
# Finite min-cost flow problems

What the engines solve: a network in which every arc has a finite capacity and a
lower bound of zero, a cost per unit on each arc, and at every node the amount
that has to leave it in excess of what enters it.

A problem remembers how it was made: the lower bounds that were taken out, the
arcs that have no capacity of their own, and whether some cycle of such arcs has
a negative cost, in which case the cost of a feasible problem has no bound.
-/

namespace NetworkFlow

/-- A min-cost flow problem with finite capacities over `n` nodes and `m` arcs. -/
structure Problem (n m : Nat) (α : Type) extends Network n m where
  cost : Table α m
  /-- What leaves a node in excess of what enters it. -/
  supply : Table Int n
  /-- The lower bounds that were taken out of flow and capacity. -/
  lower : Table Int m
  /-- The arcs whose capacity was made up. -/
  uncapped : Table Bool m
  /-- A cost counts as negative if it is below minus this. -/
  tolerance : α
  /-- A cycle of arcs without capacity has a negative cost. -/
  unbounded : Bool

/-- What an engine says about a problem. -/
inductive Outcome (n m : Nat) (α : Type) where
  | infeasible
  | unbounded
  | feasible (flow : Table Int m) (potential : Table α n)
  deriving DecidableEq

namespace Problem

variable {n m : Nat} {α : Type} [Scalar α] (p : Problem n m α)

/-- The cost of a unit along a residual arc, for given costs of the arcs. -/
def residualCost (cost : Table α m) (r : ResidualArc m) : α :=
  if r.backward then -cost[r.arc] else cost[r.arc]

/-- What the cost along a residual arc takes. -/
def priceOperations (cost : Table α m) (r : ResidualArc m) : List (CostOperation α) :=
  if r.backward then [.neg cost[r.arc]] else []

/-- The cost of a unit along a residual arc after the potentials of its ends are
taken into account. -/
def reducedCost (cost : Table α m) (potential : Table α n) (r : ResidualArc m) : α :=
  residualCost cost r + potential[p.source r] - potential[p.target r]

/-- What the reduced cost of a residual arc takes. -/
def reducedCostOperations (cost : Table α m) (potential : Table α n) (r : ResidualArc m) :
    List (CostOperation α) :=
  priceOperations cost r ++
    [.add (residualCost cost r) potential[p.source r],
      .sub (residualCost cost r + potential[p.source r]) potential[p.target r]]

end Problem

end NetworkFlow
