import NetworkFlow.BellmanFord
import NetworkFlow.KeyedMap
import NetworkFlow.Logged
import NetworkFlow.Problem

/-!
# Configured problems and the finite problems made of them

A `Configuration` is what a caller asks for: a graph with maps of lower bounds,
upper bounds, costs and supplies, each of them optional. Arcs without a lower bound
have the bound zero, arcs without an upper bound, or with the largest value of the
flow type, have no capacity, arcs without a cost have a cost of one.

`prepare` makes a finite `Problem` of it. Lower bounds are taken out: the bound
flows in any case, so it is moved from the flow into the supplies. Arcs without
capacity get one that no optimal flow needs to exceed, unless a negative cycle of
such arcs makes the cost unbounded. What passes through a node must stay so small
that the engines can count it in 64 bits.
-/

namespace NetworkFlow

/-- The supplies a caller asks for. -/
inductive Supply (n : Nat) (w : Width) where
  | zero
  | map (supply : NodeMap (Word w))
  /-- An amount that leaves one node and enters another one. -/
  | single (source target : Fin n) (amount : Word w)

/-- A graph with the maps that describe a problem on it. -/
structure Configuration (w : Width) (α : Type) where
  graph : Digraph
  lower : Option (ArcMap (Word w)) := none
  upper : Option (ArcMap (Word w)) := none
  cost : Option (ArcMap α) := none
  supply : Supply graph.nodeCount w := .zero

namespace Configuration

variable {w : Width} {α : Type}

/-- A map belongs to the graph of the configuration. -/
def owns {kind : KeyKind} {β : Type} (c : Configuration w α) (map : KeyedMap kind β) :
    Except Error Unit :=
  if map.graph = c.graph.id then .ok () else .error .foreignIdentity

/-- Asks for costs. -/
def setCost (c : Configuration w α) (map : ArcMap α) : Except Error (Configuration w α) := do
  c.owns map
  return { c with cost := some map }

/-- Asks for lower bounds. -/
def setLower (c : Configuration w α) (map : ArcMap (Word w)) :
    Except Error (Configuration w α) := do
  c.owns map
  return { c with lower := some map }

/-- Asks for upper bounds. -/
def setUpper (c : Configuration w α) (map : ArcMap (Word w)) :
    Except Error (Configuration w α) := do
  c.owns map
  return { c with upper := some map }

/-- Asks for supplies. -/
def setSupply (c : Configuration w α) (map : NodeMap (Word w)) :
    Except Error (Configuration w α) := do
  c.owns map
  return { c with supply := .map map }

/-- Asks for an amount that leaves one node and enters another one, and for no
other supplies. -/
def setSingleSupply (c : Configuration w α) (source target : Node) (amount : Word w) :
    Except Error (Configuration w α) := do
  let s : Fin c.graph.nodeCount ← c.graph.check source
  let t : Fin c.graph.nodeCount ← c.graph.check target
  return { c with supply := .single s t amount }

/-- The configuration of the same graph without any map. -/
def reset (c : Configuration w α) : Configuration w α := { graph := c.graph }

variable (c : Configuration w α)

/-- The number of nodes. -/
abbrev nodes : Nat := c.graph.nodeCount

/-- The number of arcs. -/
abbrev arcs : Nat := c.graph.arcCount

/-- The lower bound of an arc. -/
def lowerAt (a : Fin c.arcs) : Int :=
  match c.lower with
  | none => 0
  | some map => Amount.ofWord (map.valueAt a)

/-- The upper bound of an arc, if it has one. -/
def upperAt (a : Fin c.arcs) : Option Int :=
  c.upper.bind fun map => Amount.capacity? (map.valueAt a)

/-- The cost of a unit on an arc. -/
def costAt [Cost α] (index : Nat) : α :=
  match c.cost with
  | none => Cost.unit
  | some map => map.valueAt index

/-- The supplies of the nodes. -/
def supplies : Except Error (Table Int c.nodes) :=
  match c.supply with
  | .zero => .ok (.const c.nodes 0)
  | .map map => .ok (.ofFn fun v => Amount.ofWord (map.valueAt v))
  | .single source target amount => do
      let x := Amount.ofWord amount
      let supply := Table.const c.nodes 0
      let supply := supply.set source (← Amount.checked (supply[source] + x))
      return supply.set target (← Amount.checked (supply[target] - x))

/-- Why a lower bound cannot be taken out. -/
inductive Obstacle where
  /-- It is above the upper bound, so no flow meets both. -/
  | crossed (arc : Nat) (lower upper : Int)
  /-- An amount leaves the 64-bit range. -/
  | overflow

/-- The capacity of an arc above its lower bound, if it has a capacity. -/
def spread (a : Fin c.arcs) : Option Int := (c.upperAt a).map (· - c.lowerAt a)

/-- A sum that must be an amount. -/
def guarded (x : Int) : Except Obstacle Int :=
  (Amount.checked x).mapError fun _ => .overflow

/-- Moves the lower bound of an arc into the supplies of its ends. -/
def takeOut (supply : Table Int c.nodes) (a : Fin c.arcs) :
    Except Obstacle (Table Int c.nodes) := do
  let lower := c.lowerAt a
  match c.upperAt a with
  | none => pure ()
  | some upper =>
      if upper < lower then throw (.crossed a lower upper)
      let _ ← guarded (upper - lower)
  let supply := supply.set (c.graph.tail a) (← guarded (supply[c.graph.tail a] - lower))
  return supply.set (c.graph.head a) (← guarded (supply[c.graph.head a] + lower))

/-- The supplies after all lower bounds are taken out. -/
def shiftedSupplies (supply : Table Int c.nodes) : Except Obstacle (Table Int c.nodes) :=
  (List.finRange c.arcs).foldlM c.takeOut supply

/-- The capacity given to arcs without one: all that is supplied and all that the
other arcs can carry. -/
def madeUpCapacity (supply : Table Int c.nodes) : Except Error Int :=
  let spreads := (List.finRange c.arcs).map c.spread
  if spreads.any Option.isNone then
    Amount.checked (Amount.sum (supply.toList.filter (0 < ·)) + Amount.sum (spreads.filterMap id))
  else .ok 0

/-- The most that can pass through each node: its supply and the capacities of its arcs. -/
def load (supply : Table Int c.nodes) (cap : Table Int c.arcs) : Table Int c.nodes :=
  (List.finRange c.arcs).foldl
    (fun load a =>
      let load := load.set (c.graph.tail a) (load[c.graph.tail a] + cap[a])
      load.set (c.graph.head a) (load[c.graph.head a] + cap[a]))
    (supply.map fun s => (s.natAbs : Int))

/-- The arcs of the graph with their costs. -/
def costed [Cost α] : CostedArcs c.nodes (Fin c.arcs) (Cost.Wide α) where
  tail := c.graph.tail
  head := c.graph.head
  cost a := Cost.widen (c.costAt a)

/-- The arcs without a capacity. -/
def uncapped : List (Fin c.arcs) := (List.finRange c.arcs).filter fun a => (c.spread a).isNone

/-- The arcs without a capacity hold a cycle of negative cost. -/
def hasUnboundedCycle [Cost α] (tolerance : Cost.Wide α) : Bool :=
  match BellmanFord.run c.costed tolerance c.uncapped with
  | .negativeCycle _ => true
  | .converged _ => false

/-- The costs of a unit on the arcs. -/
def wideCosts [Cost α] : Table (Cost.Wide α) c.arcs := .ofFn fun a => Cost.widen (c.costAt a)

/-- A cost counts as negative if it is below minus this. -/
def costTolerance [Cost α] : Cost.Wide α :=
  Scalar.tolerance * Scalar.maxMagnitude 1 c.wideCosts.toList

/-- What `prepare` computes from the costs. -/
def costOperations [Cost α] : List (CostOperation (Cost.Wide α)) :=
  Scalar.magnitudeOperations c.wideCosts.toList ++
    .mul Scalar.tolerance (Scalar.maxMagnitude 1 c.wideCosts.toList) ::
      BellmanFord.runOperations c.costed c.costTolerance c.uncapped

/-- The problem with given supplies and with a given capacity for arcs that have none. -/
def toProblem [Cost α] (supply : Table Int c.nodes) (madeUp : Int) :
    Problem c.nodes c.arcs (Cost.Wide α) :=
  { tail := .ofFn c.graph.tail
    head := .ofFn c.graph.head
    cap := .ofFn fun a => (c.spread a).getD madeUp
    cost := c.wideCosts
    supply := supply
    lower := .ofFn c.lowerAt
    uncapped := .ofFn fun a => (c.spread a).isNone
    tolerance := c.costTolerance
    unbounded := c.hasUnboundedCycle c.costTolerance }

/-- The finite problem, or nothing if a lower bound is above its upper bound or the
supplies do not cancel out, so that no flow can be feasible. -/
def prepare [Cost α] : Logged (Option (Problem c.nodes c.arcs (Cost.Wide α))) := do
  let supply ← c.supplies
  match c.shiftedSupplies supply with
  | .error (.crossed arc lower upper) =>
      Logged.report (.boundsCrossed arc lower upper)
      return none
  | .error .overflow => Logged.refuse .arithmeticOverflow
  | .ok supply =>
      let total ← supply.toList.foldlM (fun sum s => Amount.checked (sum + s)) (0 : Int)
      if total ≠ 0 then
        Logged.report (.suppliesUnbalanced total)
        return none
      let madeUp ← c.madeUpCapacity supply
      let problem := c.toProblem supply madeUp
      let load := c.load supply problem.cap
      match load.toList.findIdx? (Amount.loadLimit < ·) with
      | some v =>
          Logged.report (.loadExceeded v Amount.loadLimit)
          Logged.refuse .arithmeticOverflow
      | none =>
          Scalar.inRange c.costOperations
          return some problem

end Configuration

end NetworkFlow
