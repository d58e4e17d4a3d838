import NetworkFlow.CapacityScaling.Search
import NetworkFlow.Logged
import NetworkFlow.Loop

/-!
# Capacity scaling

Excesses are sent to deficits along shortest paths, large amounts first: a phase
looks only at residual arcs with room for `delta` and at excesses and deficits of
at least `delta`, and `delta` shrinks by a constant factor from phase to phase
down to one. A phase begins by filling the arcs of negative reduced cost that
just became wide enough to be seen.

The factor is an option of the caller, read as a signed 64-bit number.
-/

namespace NetworkFlow.CapacityScaling

variable {n m : Nat} {α : Type} [Scalar α] (p : Indexed n m α)

/-- Moves a positive amount along a residual arc. -/
def push (st : State n m α) (r : ResidualArc m) (amount : Int) : State n m α :=
  if 0 < amount then
    let u := p.source r
    let v := p.target r
    let excess := st.excess.set u (st.excess[u] - amount)
    { st with
      flow := sendAlong st.flow r amount
      excess := excess.set v (excess[v] + amount) }
  else st

/-- Fills an arc of negative cost. -/
def fillNegative (st : State n m α) (a : Fin m) : State n m α :=
  if p.cost[a] < 0 then push p st ⟨a, false⟩ (p.room st.flow ⟨a, false⟩) else st

/-- Fills a residual arc with room for `delta` whose reduced cost is negative. -/
def saturate (delta : Int) (st : State n m α) (r : ResidualArc m) : State n m α :=
  if delta ≤ p.room st.flow r ∧ p.reducedCost p.cost st.potential r < -p.tolerance then
    push p st r (p.room st.flow r)
  else st

/-- What it takes to tell whether a residual arc is to be filled. -/
def saturateOperations (delta : Int) (st : State n m α) (r : ResidualArc m) :
    List (CostOperation α) :=
  if delta ≤ p.room st.flow r then
    p.reducedCostOperations p.cost st.potential r ++ [.neg p.tolerance]
  else []

/-- Fills the residual arcs with room for `delta` whose reduced costs are negative. -/
def saturateNegative (delta : Int) (st : State n m α) : State n m α :=
  (ResidualArc.all m).foldl (saturate p delta) st

/-- What filling the residual arcs takes. -/
def fillOperations (delta : Int) (st : State n m α) : List (CostOperation α) :=
  Scalar.foldOperations (saturate p delta) (saturateOperations p delta) st (ResidualArc.all m)

/-- Lowers the potentials of the settled nodes by what they are nearer than the target. -/
def shift (potential : Table α n) (settled : List (Fin n × α)) (dist : α) : Table α n :=
  settled.foldl (fun potential (v, d) => potential.set v (potential[v] + (d - dist))) potential

/-- What lowering the potentials takes. -/
def shiftOperations (potential : Table α n) (settled : List (Fin n × α)) (dist : α) :
    List (CostOperation α) :=
  Scalar.foldOperations (fun potential (v, d) => potential.set v (potential[v] + (d - dist)))
    (fun potential (v, d) => [.sub d dist, .add potential[v] (d - dist)]) potential settled

/-- Sends along a way as much as its start has, its end needs and its arcs have room for. -/
def augment (st : State n m α) (s : Fin n) (way : Route n m α) : State n m α :=
  let wanted := min st.excess[s] (-st.excess[way.target])
  let amount := way.path.foldl (fun least r => min least (p.room st.flow r)) wanted
  let excess := st.excess.set s (st.excess[s] - amount)
  { flow := way.path.foldl (fun flow r => sendAlong flow r amount) st.flow
    potential := shift st.potential way.settled way.dist
    excess := excess.set way.target (excess[way.target] + amount) }

/-- A state within a phase. -/
structure Progress (n m : Nat) (α : Type) where
  state : State n m α
  /-- How many ways were used so far. -/
  augmentations : Nat
  /-- A way was used since the flag was last lowered. -/
  moved : Bool

/-- Uses one way from a node with an excess of at least `delta`. -/
def drainStep (delta : Int) (s : Fin n) (g : Progress n m α) :
    Step (Progress n m α) (Progress n m α) :=
  if g.state.excess[s] < delta then .done g
  else
    match nearestDeficit p g.state s delta with
    | none => .done g
    | some way =>
        .next
          { state := augment p g.state s way
            augmentations := g.augmentations + 1
            moved := true }

/-- What using one way takes. -/
def drainOperations (delta : Int) (s : Fin n) (g : Progress n m α) : List (CostOperation α) :=
  if g.state.excess[s] < delta then []
  else
    deficitOperations p g.state s delta ++
      match nearestDeficit p g.state s delta with
      | none => []
      | some way => shiftOperations g.state.potential way.settled way.dist

/-- Uses ways from a node while it has an excess of at least `delta` and reaches a deficit. -/
def drain (fuel : Nat) (delta : Int) (g : Progress n m α) (s : Fin n) :
    Except Interruption (Progress n m α) :=
  iterate fuel (fun g => Scalar.checked (drainOperations p delta s g) (drainStep p delta s g)) g

/-- Drains every node in turn, again and again until nothing moves. -/
def sweepStep (fuel : Nat) (delta : Int) (g : Progress n m α) :
    Except Interruption (Step (Progress n m α) (Progress n m α)) := do
  let g ← (List.finRange n).foldlM (drain p fuel delta) { g with moved := false }
  return if g.moved then .next g else .done g

/-- One phase. -/
def phase (fuel : Nat) (delta : Int) (g : Progress n m α) :
    Except Interruption (Progress n m α) := do
  Scalar.inRange (fillOperations p delta g.state)
  iterate fuel (sweepStep p fuel delta) { g with state := saturateNegative p delta g.state }

/-- The factor as the signed number that the schedule computes with. -/
def signedFactor (factor : Nat) : Int := Width.bits64.residue factor

/-- The delta after `delta`. -/
def nextDelta (factor : Nat) (delta : Int) : Int :=
  max (delta.tdiv (signedFactor factor)) 1

/-- One phase for the current delta; the last one is for a delta of one. -/
def phaseStep (fuel factor : Nat) (s : Progress n m α × Int) :
    Except Interruption (Step (Progress n m α × Int) (Progress n m α)) := do
  let g ← phase p fuel s.2 s.1
  return if s.2 = 1 then .done g else .next (g, nextDelta factor s.2)

/-- The largest amount that a phase can be about: the largest excess, deficit or
capacity of an arc that has one. -/
def largestAmount (st : State n m α) : Int :=
  let excess := (st.excess.toList.map fun e => (e.natAbs : Int)).max?.getD 0
  let caps := ((List.finRange m).filter fun a => !p.uncapped[a]).map (p.cap[·])
  max excess (caps.max?.getD 0)

/-- Multiplies delta by the factor, unless that leaves the range or the limit. -/
def growStep (factor : Nat) (limit : Int) (delta : Int) : Step Int Int :=
  let next := delta * signedFactor factor
  if Width.bits64.Fits next ∧ next ≤ limit then .next next else .done delta

/-- The delta of the first phase. -/
def startDelta (fuel factor : Nat) (limit : Int) : Except Interruption Int :=
  if factor < 2 then .ok 1
  else iterate fuel (fun delta => .ok (growStep factor limit delta)) 1

/-- The state before the first phase: arcs of negative cost are filled, so that
every residual arc with room has a reduced cost of at least zero. -/
def start : State n m α :=
  (List.finRange m).foldl (fillNegative p)
    { flow := .const m 0, potential := .const n 0, excess := p.supply }

/-- The state after the last phase. -/
def run (fuel factor : Nat) : Except Interruption (Progress n m α) := do
  let st := start p
  let delta ← startDelta fuel factor (largestAmount p st)
  iterate fuel (phaseStep p fuel factor)
    ({ state := st, augmentations := 0, moved := false }, delta)

/-- A flow of least cost with potentials that prove it, by capacity scaling. -/
def solve (fuel : Nat) (p : Problem n m α) (factor : Nat) : Logged (Outcome n m α) := do
  let last ← Logged.ofRun (run { p with rows := p.rows } fuel factor)
  Logged.report (.augmentationsDone last.augmentations)
  if last.state.excess.toList.any (· ≠ 0) then return .infeasible
  return .feasible last.state.flow last.state.potential

end NetworkFlow.CapacityScaling
