import NetworkFlow.Loop
import NetworkFlow.Problem

/-!
# Making a flow epsilon-optimal

A flow with potentials is epsilon-optimal if no residual arc with room has a
reduced cost below `-epsilon`. `refine` first fills every residual arc of negative
reduced cost, which leaves some nodes with an excess and others with a deficit,
and then moves the excesses along arcs of negative reduced cost. A node that has
none lowers its potential by as much as it takes to get one, and by `epsilon` more.

A node that holds an excess but no residual arc with room ends the search: no flow
meets the supplies then.
-/

namespace NetworkFlow.CostScaling

variable {n m : Nat} {α : Type} [Scalar α]

/-- A flow, its potentials and what the nodes hold. -/
structure State (n m : Nat) (α : Type) where
  flow : Table Int m
  potential : Table α n
  excess : Table Int n
  /-- The place in the row of a node where its next push is tried. -/
  current : Table Nat n
  /-- The nodes that wait to be discharged, the next one first. -/
  active : List (Fin n)

/-- A network with its residual arcs by the node they leave and the scaled costs. -/
structure Scaled (n m : Nat) (α : Type) extends Problem n m α where
  rows : Compressed n (ResidualArc m)
  scaledCost : Table α m

/-- What a search ends with: a state, or nothing because a node is stuck. -/
abbrev Result (n m : Nat) (α : Type) := Option (State n m α)

variable (p : Scaled n m α)

/-- A residual arc has room and a negative reduced cost. -/
def admissible (s : State n m α) (r : ResidualArc m) : Bool :=
  0 < p.room s.flow r ∧ p.reducedCost p.scaledCost s.potential r < 0

/-- What it takes to tell whether a residual arc is admissible. -/
def admissibleOperations (s : State n m α) (r : ResidualArc m) : List (CostOperation α) :=
  if 0 < p.room s.flow r then p.reducedCostOperations p.scaledCost s.potential r else []

/-- Moves an amount along a residual arc. A node that gets an excess joins the queue. -/
def push (s : State n m α) (r : ResidualArc m) (amount : Int) : State n m α :=
  let u := p.source r
  let v := p.target r
  let excess := s.excess.set u (s.excess[u] - amount)
  let before := excess[v]
  { s with
    flow := sendAlong s.flow r amount
    excess := excess.set v (before + amount)
    active := if before ≤ 0 ∧ 0 < before + amount then s.active ++ [v] else s.active }

/-- Fills a residual arc that is admissible. -/
def saturate (s : State n m α) (r : ResidualArc m) : State n m α :=
  if admissible p s r then push p s r (p.room s.flow r) else s

/-- The highest potential at which some residual arc of a node has a reduced cost of zero. -/
def highest (s : State n m α) (u : Fin n) : Option α :=
  (p.rows[u].toList.filter (0 < p.room s.flow ·)).foldl
    (fun best r =>
      let candidate := s.potential[p.target r] - Problem.residualCost p.scaledCost r
      match best with
      | none => some candidate
      | some b => if b < candidate then some candidate else some b)
    none

/-- What the highest potential takes. -/
def highestOperations (s : State n m α) (u : Fin n) : List (CostOperation α) :=
  (p.rows[u].toList.filter (0 < p.room s.flow ·)).flatMap fun r =>
    Problem.priceOperations p.scaledCost r ++
      [.sub s.potential[p.target r] (Problem.residualCost p.scaledCost r)]

/-- Lowers the potential of a node until one of its residual arcs becomes admissible. -/
def relabel (epsilon : α) (s : State n m α) (u : Fin n) : Option (State n m α) :=
  (highest p s u).map fun best =>
    { s with
      potential := s.potential.set u (best - epsilon)
      current := s.current.set u 0 }

/-- What lowering the potential of a node takes. -/
def relabelOperations (epsilon : α) (s : State n m α) (u : Fin n) : List (CostOperation α) :=
  highestOperations p s u ++
    match highest p s u with
    | some best => [.sub best epsilon]
    | none => []

/-- One step of discharging a node. -/
def dischargeStep (epsilon : α) (u : Fin n) (s : State n m α) :
    Step (State n m α) (Result n m α) :=
  if s.excess[u] ≤ 0 then .done (some s)
  else
    match p.rows[u][s.current[u]]? with
    | some r =>
        if admissible p s r then
          .next (push p s r (min s.excess[u] (p.room s.flow r)))
        else .next { s with current := s.current.set u (s.current[u] + 1) }
    | none =>
        match relabel p epsilon s u with
        | some s => .next s
        | none => .done none

/-- What one step of discharging a node takes. -/
def dischargeOperations (epsilon : α) (u : Fin n) (s : State n m α) : List (CostOperation α) :=
  if s.excess[u] ≤ 0 then []
  else
    match p.rows[u][s.current[u]]? with
    | some r => admissibleOperations p s r
    | none => relabelOperations p epsilon s u

/-- Pushes and lowers until a node has no excess left. -/
def discharge (fuel : Nat) (epsilon : α) (s : State n m α) (u : Fin n) :
    Except Interruption (Result n m α) :=
  iterate fuel
    (fun s => Scalar.checked (dischargeOperations p epsilon u s) (dischargeStep p epsilon u s)) s

/-- Discharges the node at the head of the queue. -/
def queueStep (fuel : Nat) (epsilon : α) (s : State n m α) :
    Except Interruption (Step (State n m α) (Result n m α)) :=
  match s.active with
  | [] => .ok (.done (some s))
  | u :: rest => do
      match ← discharge p fuel epsilon { s with active := rest } u with
      | none => return .done none
      | some s => return .next s

/-- What filling the admissible residual arcs takes. -/
def fillOperations (s : State n m α) : List (CostOperation α) :=
  Scalar.foldOperations (saturate p) (admissibleOperations p) s (ResidualArc.all m)

/-- Turns a feasible flow into an epsilon-optimal one. -/
def refine (fuel : Nat) (epsilon : α) (s : State n m α) :
    Except Interruption (Result n m α) := do
  Scalar.inRange (fillOperations p s)
  let s := (ResidualArc.all m).foldl (saturate p) s
  iterate fuel (queueStep p fuel epsilon) { s with current := .const n 0 }

end NetworkFlow.CostScaling
