import NetworkFlow.Amount
import NetworkFlow.Logged
import NetworkFlow.Loop
import NetworkFlow.Problem

/-!
# Maximum flows by push and relabel

`MaxFlow.run` sends as much as possible from a source to a target. Nodes with an
excess wait in a queue, first in, first out. A node taken from the queue is
discharged: it pushes its excess along residual arcs that go down by exactly one
label, and when it has tried all of them it is lifted just above its lowest
neighbour.

`feasibleFlow` meets the supplies of a problem, if they can be met: a super source
feeds the nodes that supply, a super sink drains the nodes that demand, and the
supplies are met exactly if a maximum flow carries all of the demand.

Excesses are checked 64-bit sums; the target gathers what arrives without counting it.
-/

namespace NetworkFlow

namespace MaxFlow

variable {n m : Nat}

/-- A flow on the way to being maximal. -/
structure State (n m : Nat) where
  flow : Table Int m
  /-- What has entered a node and not left it. -/
  excess : Table Int n
  label : Table Nat n
  /-- The place in the row of a node where its next push is tried. -/
  current : Table Nat n
  /-- The nodes that wait to be discharged, the next one first. -/
  active : List (Fin n)

/-- The network, its residual arcs by the node they leave, and the two special nodes. -/
structure Terminals (n m : Nat) extends Network n m where
  rows : Compressed n (ResidualArc m)
  source : Fin n
  target : Fin n

variable (t : Terminals n m)

/-- Adds to the excess of a node. A node other than source and target that gets an
excess joins the queue. -/
def addExcess (s : State n m) (u : Fin n) (amount : Int) : Except Error (State n m) :=
  if u = t.target then .ok s
  else do
    let before := s.excess[u]
    let after ← Amount.checked (before + amount)
    let s := { s with excess := s.excess.set u after }
    if u ≠ t.source ∧ before ≤ 0 ∧ 0 < after then
      return { s with active := s.active ++ [u] }
    return s

/-- A push along `r` goes down by exactly one label and finds room. -/
def canPush (s : State n m) (u : Fin n) (r : ResidualArc m) : Bool :=
  0 < t.room s.flow r ∧ s.label[u] = s.label[t.toNetwork.target r] + 1

/-- Pushes as much of the excess of `u` along `r` as there is room for. -/
def push (s : State n m) (u : Fin n) (r : ResidualArc m) : Except Error (State n m) := do
  let amount := min s.excess[u] (t.room s.flow r)
  let s ← addExcess t s u (-amount)
  let s ← addExcess t s (t.toNetwork.target r) amount
  return { s with flow := sendAlong s.flow r amount }

/-- Lifts a node just above its lowest neighbour along a residual arc with room. -/
def relabel (s : State n m) (u : Fin n) : State n m :=
  let labels := (t.rows[u].toList.filter (0 < t.room s.flow ·)).map
    (s.label[t.toNetwork.target ·])
  { s with
    label := s.label.set u (labels.min?.getD (2 * n) + 1)
    current := s.current.set u 0 }

/-- One step of discharging a node. -/
def dischargeStep (u : Fin n) (s : State n m) : Step (State n m) (Except Error (State n m)) :=
  if s.excess[u] ≤ 0 then .done (.ok s)
  else
    match t.rows[u][s.current[u]]? with
    | none => .next (relabel t s u)
    | some r =>
        if canPush t s u r then
          match push t s u r with
          | .ok s => .next s
          | .error cause => .done (.error cause)
        else .next { s with current := s.current.set u (s.current[u] + 1) }

/-- Pushes and lifts until a node has no excess left. -/
def discharge (fuel : Nat) (s : State n m) (u : Fin n) :
    Except Interruption (Except Error (State n m)) :=
  iterate fuel (fun s => .ok (dischargeStep t u s)) s

/-- Discharges the node at the head of the queue. -/
def queueStep (fuel : Nat) (s : State n m) :
    Except Interruption (Step (State n m) (Except Error (State n m))) :=
  match s.active with
  | [] => .ok (.done (.ok s))
  | u :: rest => do
      match ← discharge t fuel { s with active := rest } u with
      | .ok s => return .next s
      | .error cause => return .done (.error cause)

/-- Fills a residual arc that leaves the source. -/
def fill (s : State n m) (r : ResidualArc m) : Except Error (State n m) :=
  let amount := t.room s.flow r
  if r.backward ∨ amount ≤ 0 then .ok s
  else do
    let s := { s with flow := sendAlong s.flow r amount }
    let s ← addExcess t s t.source (-amount)
    addExcess t s (t.toNetwork.target r) amount

/-- The state in which every arc out of the source is filled. -/
def start : Except Error (State n m) :=
  t.rows[t.source].toList.foldlM (fill t)
    { flow := .const m 0
      excess := .const n 0
      label := (Table.const n 0).set t.source n
      current := .const n 0
      active := [] }

/-- A maximum flow from a source to a target; a negative capacity counts as zero. -/
def run (fuel : Nat) (net : Network n m) (source target : Fin n) :
    Except Interruption (Except Error (Table Int m)) :=
  let net := { net with cap := net.cap.map (max · 0) }
  let t : Terminals n m := { net with rows := net.rows, source, target }
  match start t with
  | .error cause => .ok (.error cause)
  | .ok s => (iterate fuel (queueStep t fuel) s).map fun result => result.map (·.flow)

end MaxFlow

/-- An arc that feeds or drains a node. -/
structure SupplyArc (n : Nat) where
  tail : Fin (n + 2)
  head : Fin (n + 2)
  cap : Int

namespace SupplyArc

variable {n : Nat}

/-- The super source. -/
def source (n : Nat) : Fin (n + 2) := ⟨n, by omega⟩

/-- The super sink. -/
def sink (n : Nat) : Fin (n + 2) := ⟨n + 1, by omega⟩

/-- A node of the problem among the nodes of the larger network. -/
def inner (v : Fin n) : Fin (n + 2) := ⟨v, by omega⟩

/-- The arc that meets the supply of a node. -/
def ofSupply (v : Fin n) (supply : Int) : Option (SupplyArc n) :=
  if 0 < supply then some ⟨source n, inner v, supply⟩
  else if supply < 0 then some ⟨inner v, sink n, -supply⟩
  else none

/-- The arcs that meet the supplies of a problem, in the order of its nodes. -/
def ofSupplies (supply : Table Int n) : Array (SupplyArc n) :=
  ((List.finRange n).filterMap fun v => ofSupply v supply[v]).toArray

end SupplyArc

namespace Problem

variable {n m : Nat} {α : Type} (p : Problem n m α)

/-- The network of a problem with the arcs that meet its supplies. -/
def withSupplyArcs : Network (n + 2) (m + (SupplyArc.ofSupplies p.supply).size) :=
  let arcs := Table.ofArray (SupplyArc.ofSupplies p.supply)
  { tail := p.tail.map SupplyArc.inner ++ arcs.map (·.tail)
    head := p.head.map SupplyArc.inner ++ arcs.map (·.head)
    cap := p.cap ++ arcs.map (·.cap) }

/-- The sum of the positive supplies, if it is an amount. -/
def demand : Except Error Int :=
  (p.supply.toList.filter (0 < ·)).foldlM (fun sum s => Amount.checked (sum + s)) 0

/-- What a flow in the larger network carries out of the super source. -/
def suppliedBy (flow : Table Int (m + (SupplyArc.ofSupplies p.supply).size)) : Int :=
  let arcs := Table.ofArray (SupplyArc.ofSupplies p.supply)
  Amount.sum ((List.finRange (SupplyArc.ofSupplies p.supply).size).map fun i =>
    if arcs[i].tail = SupplyArc.source n then flow[Fin.natAdd m i] else 0)

end Problem

/-- A flow that meets every supply and capacity of a problem, if there is one. -/
def feasibleFlow {n m : Nat} {α : Type} (fuel : Nat) (p : Problem n m α) :
    Logged (Option (Table Int m)) := do
  let demand ← p.demand
  let flow ← Logged.ofRun
    (MaxFlow.run fuel p.withSupplyArcs (SupplyArc.source n) (SupplyArc.sink n))
  let flow ← flow
  let value := p.suppliedBy flow
  Logged.report (.feasibilityFlow value demand)
  if value < demand then return none
  return some (.ofFn fun a => flow[Fin.castAdd (SupplyArc.ofSupplies p.supply).size a])

end NetworkFlow
