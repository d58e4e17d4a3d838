import NetworkFlow.Logged
import NetworkFlow.Loop
import NetworkFlow.NetworkSimplex.Entering
import NetworkFlow.NetworkSimplex.Pivot

/-!
# The network simplex

Starting from the tree of artificial arcs, pivots go on while an arc violates
optimality. After a long run of pivots that do not change the flow, the rule that
cannot cycle takes over for good. At the end, the problem has a flow exactly if the
artificial arcs carry nothing.
-/

namespace NetworkFlow.NetworkSimplex

variable {n m : Nat} {α : Type} [Scalar α] (t : Tableau n m α)

/-- A basis, the pivots made so far, how many of the last ones were degenerate, and
after how many of these the rule that cannot cycle took over, if it did. -/
structure Progress (n m : Nat) (α : Type) where
  basis : Basis n m α
  pivots : Nat
  degenerate : Nat
  adopted : Option Nat

/-- How the pivots end. -/
inductive Finish (n m : Nat) (α : Type) where
  /-- No arc violates optimality. -/
  | optimal (s : Progress n m α)
  /-- The flow can change without bound. -/
  | unbounded (s : Progress n m α)

/-- How many degenerate pivots in a row are allowed. -/
def degenerateLimit (arcs : Nat) : Nat := max arcs 16

/-- Counts a degenerate pivot. -/
def countDegenerate (s : Progress n m α) (b : Basis n m α) : Progress n m α :=
  let degenerate := s.degenerate + 1
  let adopt := !b.bland && degenerateLimit (m + n) < degenerate
  { basis := { b with bland := b.bland || adopt }
    pivots := s.pivots + 1
    degenerate := degenerate
    adopted := if adopt then some degenerate else s.adopted }

/-- One pivot, or the end. -/
def pivotStep (s : Progress n m α) : Step (Progress n m α) (Finish n m α) :=
  let (entering, cursor) := findEntering t s.basis
  match entering with
  | none => .done (.optimal s)
  | some a =>
      match pivot t { s.basis with cursor := cursor } a with
      | .unbounded => .done (.unbounded s)
      | .progress b => .next { s with basis := b, pivots := s.pivots + 1, degenerate := 0 }
      | .degenerate b => .next (countDegenerate s b)

/-- What one pivot, or the end, takes. -/
def stepOperations (s : Progress n m α) : List (CostOperation α) :=
  let (entering, cursor) := findEntering t s.basis
  enteringOperations t s.basis ++
    match entering with
    | none => []
    | some a => pivotOperations t { s.basis with cursor := cursor } a

/-- All pivots. -/
def run (fuel : Nat) (s : Progress n m α) : Except Interruption (Finish n m α) :=
  iterate fuel (fun s => Scalar.checked (stepOperations t s) (pivotStep t s)) s

/-- The flow of the arcs of the problem. -/
def ownFlow (b : Basis n m α) : Table Int m := .ofFn fun a => b.flow[Fin.castAdd n a]

/-- The potentials of the nodes of the problem. -/
def ownPotential (b : Basis n m α) : Table α n := .ofFn fun v => b.potential[below v]

/-- Some artificial arc carries flow. -/
def usesArtificial (b : Basis n m α) : Bool :=
  (List.finRange n).any fun v => b.flow[artificial m v] ≠ 0

/-- Reports that the rule that cannot cycle took over, if it did. -/
def reportAdopted (s : Progress n m α) : Logged Unit :=
  match s.adopted with
  | some degenerate => Logged.report (.blandAdopted degenerate)
  | none => return ()

/-- A flow of least cost with potentials that prove it, by the network simplex. -/
def solve (fuel : Nat) (p : Problem n m α) (rule : PivotRule) : Logged (Outcome n m α) := do
  Scalar.inRange (Tableau.artificialCostOperations p)
  let dear ← Tableau.artificialCost p
  let t := Tableau.ofProblem p rule dear
  Scalar.inRange (Basis.startOperations t p)
  let start : Progress n m α :=
    { basis := Basis.start t p, pivots := 0, degenerate := 0, adopted := none }
  match ← Logged.ofRun (run t fuel start) with
  | .unbounded s =>
      reportAdopted s
      return .unbounded
  | .optimal s =>
      reportAdopted s
      Logged.report (.pivotsDone s.pivots)
      if usesArtificial s.basis then return .infeasible
      return .feasible (ownFlow s.basis) (ownPotential s.basis)

end NetworkFlow.NetworkSimplex
