/-!
# The verdict on a min-cost flow problem

A problem that can be decided at all has exactly one of three verdicts. Each
has a wording, an identifier and a number; the numbers belong to the interface
of the flat surface and do not change.
-/

namespace NetworkFlow

/-- What a run says about the configured problem. -/
inductive Verdict where
  | infeasible
  | optimal
  | unbounded
  deriving DecidableEq, Repr

namespace Verdict

/-- The verdict in words. -/
def text : Verdict → String
  | infeasible => "infeasible"
  | optimal => "optimal"
  | unbounded => "unbounded"

/-- The number of the verdict on the flat surface. -/
def code : Verdict → Nat
  | infeasible => 0
  | optimal => 1
  | unbounded => 2

/-- The identifier of the verdict. -/
def name : Verdict → String
  | infeasible => "Infeasible"
  | optimal => "Optimal"
  | unbounded => "Unbounded"

/-- The verdict with a given identifier. -/
def ofName? (name : String) : Option Verdict :=
  [infeasible, optimal, unbounded].find? (·.name = name)

theorem ofName?_name (v : Verdict) : ofName? v.name = some v := by
  cases v <;> decide

end Verdict

end NetworkFlow
