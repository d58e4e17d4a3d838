/-!
# Solution methods and their options

Three algorithms solve a min-cost flow problem, each with one option: the rule
by which the network simplex chooses the entering arc, the divisor of epsilon in
cost scaling, the divisor of delta in capacity scaling. A `Method` is an
algorithm together with its option.
-/

namespace NetworkFlow

/-- The algorithms a solver can use. -/
inductive Algorithm where
  | networkSimplex
  | costScaling
  | capacityScaling
  deriving DecidableEq, Repr

namespace Algorithm

/-- The algorithm used unless another one is asked for. -/
def standard : Algorithm := networkSimplex

/-- The algorithm in words. -/
def text : Algorithm → String
  | networkSimplex => "network simplex"
  | costScaling => "cost scaling"
  | capacityScaling => "capacity scaling"

/-- The identifier of the algorithm. -/
def name : Algorithm → String
  | networkSimplex => "NetworkSimplex"
  | costScaling => "CostScaling"
  | capacityScaling => "CapacityScaling"

/-- All algorithms, in the order of their numbers on the flat surface. -/
def all : List Algorithm := [networkSimplex, costScaling, capacityScaling]

/-- The algorithm with a given identifier. -/
def ofName? (name : String) : Option Algorithm :=
  all.find? (·.name = name)

theorem ofName?_name (a : Algorithm) : ofName? a.name = some a := by
  cases a <;> decide

end Algorithm

/-- How the network simplex chooses the entering arc. -/
inductive PivotRule where
  /-- The next eligible arc after the previous entering arc. -/
  | firstEligible
  /-- The arc that violates optimality most. -/
  | bestEligible
  /-- The most violating arc of the next block of about `√m` arcs. -/
  | blockSearch
  /-- The eligible arc of smallest index; slow, but it never cycles. -/
  | bland
  deriving DecidableEq, Repr

namespace PivotRule

/-- The rule used unless another one is asked for. -/
def standard : PivotRule := blockSearch

/-- The identifier of the rule. -/
def name : PivotRule → String
  | firstEligible => "FirstEligible"
  | bestEligible => "BestEligible"
  | blockSearch => "BlockSearch"
  | bland => "Bland"

/-- All rules. -/
def all : List PivotRule := [firstEligible, bestEligible, blockSearch, bland]

/-- The rule with a given identifier. -/
def ofName? (name : String) : Option PivotRule :=
  all.find? (·.name = name)

theorem ofName?_name (r : PivotRule) : ofName? r.name = some r := by
  cases r <;> decide

end PivotRule

/-- An algorithm with its option. -/
inductive Method where
  | networkSimplex (rule : PivotRule)
  | costScaling (alpha : Nat)
  | capacityScaling (factor : Nat)
  deriving DecidableEq, Repr

namespace Method

/-- The divisor of epsilon used unless another one is asked for. -/
def standardAlpha : Nat := 16

/-- The divisor of delta used unless another one is asked for. -/
def standardFactor : Nat := 4

/-- An algorithm with its usual option. -/
def ofAlgorithm : Algorithm → Method
  | .networkSimplex => networkSimplex .standard
  | .costScaling => costScaling standardAlpha
  | .capacityScaling => capacityScaling standardFactor

/-- The algorithm of a method. -/
def algorithm : Method → Algorithm
  | networkSimplex _ => .networkSimplex
  | costScaling _ => .costScaling
  | capacityScaling _ => .capacityScaling

theorem algorithm_ofAlgorithm (a : Algorithm) : (ofAlgorithm a).algorithm = a := by
  cases a <;> rfl

end Method

end NetworkFlow
