import NetworkFlow.Scalar
import NetworkFlow.Table

/-!
# Shortest distances and negative cycles

`BellmanFord.run` relaxes arcs in rounds, starting with distance zero at every
node, as if a further node were joined to each by an arc of cost zero. If a round
relaxes nothing, the distances are final. If the `n`-th round still relaxes an
arc, walking back `n` arcs from its head leads onto a cycle of negative cost.

An arc relaxes only if it improves a distance by more than the tolerance.
-/

namespace NetworkFlow

/-- Arcs of a type `ι` between `n` nodes, with costs. -/
structure CostedArcs (n : Nat) (ι α : Type) where
  tail : ι → Fin n
  head : ι → Fin n
  cost : ι → α

/-- What relaxing arcs leads to. -/
inductive Relaxation (n : Nat) (ι α : Type) where
  /-- Final distances. -/
  | converged (dist : Table α n)
  /-- The arcs of a cycle of negative cost, in the order in which they follow each other. -/
  | negativeCycle (cycle : List ι)

namespace BellmanFord

variable {n : Nat} {ι α : Type} [Scalar α]

/-- Tentative distances, the arc that last improved each, and the head of the last
arc relaxed in the current round. -/
structure Labels (n : Nat) (ι α : Type) where
  dist : Table α n
  pred : Table (Option ι) n
  last : Option (Fin n)

/-- The labels before the first round. -/
def start (n : Nat) (ι α : Type) [Scalar α] : Labels n ι α where
  dist := .const n 0
  pred := .const n none
  last := none

variable (g : CostedArcs n ι α) (tolerance : α)

/-- Relaxes one arc. -/
def relax (s : Labels n ι α) (k : ι) : Labels n ι α :=
  let candidate := s.dist[g.tail k] + g.cost k
  if candidate < s.dist[g.head k] - tolerance then
    { dist := s.dist.set (g.head k) candidate
      pred := s.pred.set (g.head k) (some k)
      last := some (g.head k) }
  else s

/-- What relaxing an arc computes. -/
def relaxOperations (s : Labels n ι α) (k : ι) : List (CostOperation α) :=
  [.add s.dist[g.tail k] (g.cost k), .sub s.dist[g.head k] tolerance]

/-- Relaxes every arc once. -/
def round (arcs : List ι) (s : Labels n ι α) : Labels n ι α :=
  arcs.foldl (relax g tolerance) { s with last := none }

/-- What a round computes. -/
def roundOperations (arcs : List ι) (s : Labels n ι α) : List (CostOperation α) :=
  Scalar.foldOperations (relax g tolerance) (relaxOperations g tolerance) { s with last := none }
    arcs

/-- Goes through rounds until one relaxes nothing, `count` rounds at most. -/
def rounds (arcs : List ι) : Nat → Labels n ι α → Labels n ι α
  | 0, s => s
  | count + 1, s =>
      let s' := round g tolerance arcs s
      if s'.last.isNone then s' else rounds arcs count s'

/-- What the rounds compute. -/
def roundsOperations (arcs : List ι) : Nat → Labels n ι α → List (CostOperation α)
  | 0, _ => []
  | count + 1, s =>
      let s' := round g tolerance arcs s
      roundOperations g tolerance arcs s ++
        if s'.last.isNone then [] else roundsOperations arcs count s'

/-- The node reached by going back `count` arcs. -/
def walkBack (pred : Table (Option ι) n) : Nat → Fin n → Option (Fin n)
  | 0, v => some v
  | count + 1, v =>
      match pred[v] with
      | none => none
      | some k => walkBack pred count (g.tail k)

/-- The arcs met on the way back from a node to `stop`, `count` arcs at most. -/
def traceBack (pred : Table (Option ι) n) (stop : Fin n) : Nat → Fin n → Option (List ι)
  | 0, _ => none
  | count + 1, v =>
      match pred[v] with
      | none => none
      | some k =>
          if g.tail k = stop then some [k]
          else (traceBack pred stop count (g.tail k)).map (k :: ·)

/-- The cycle behind the head of an arc that relaxed in the last round. -/
def cycleBehind (pred : Table (Option ι) n) (v : Fin n) : Option (List ι) := do
  let stop ← walkBack g pred n v
  let back ← traceBack g pred stop (n + 1) stop
  return back.reverse

/-- Final distances over the arcs of a list, or a cycle of negative cost. -/
def run (arcs : List ι) : Relaxation n ι α :=
  let s := rounds g tolerance arcs n (start n ι α)
  match s.last.bind (cycleBehind g s.pred) with
  | some cycle => .negativeCycle cycle
  | none => .converged s.dist

/-- What `run` computes. -/
def runOperations (arcs : List ι) : List (CostOperation α) :=
  roundsOperations g tolerance arcs n (start n ι α)

end BellmanFord

end NetworkFlow
