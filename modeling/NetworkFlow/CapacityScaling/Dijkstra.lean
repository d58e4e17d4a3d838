import NetworkFlow.CapacityScaling.Search
import NetworkFlow.Loop

/-!
# The search with a heap

A search for the nearest deficit that is run again and again on the same buffers. The nodes that
are reached wait in a heap. A node that is reached once more, on a better path, is put into the
heap once more; its old entry stays there until it is taken out, and is skipped then because the
node is done.

Of the buffers, a run clears the marks of the nodes that the run before has touched, and no more.
The distance and the last arc of a node are left over from some earlier run unless the node is
marked.

`nearestDeficit` looks at all nodes for the nearest one instead, and begins with empty tables.
-/

namespace NetworkFlow.CapacityScaling

variable {n m : Nat} {α : Type} [Scalar α]

/-- A node that waits, at the distance at which it was reached. -/
structure Entry (n : Nat) (α : Type) where
  dist : α
  node : Fin n

/-- The order of the heap. It is reversed: the greatest entry is the nearest one, of smallest number
among equals. Distances of which none is less are taken for equal. -/
def Entry.compare (x y : Entry n α) : Ordering :=
  let byDist : Ordering := if y.dist < x.dist then .lt else if x.dist < y.dist then .gt else .eq
  byDist.then (Ord.compare y.node x.node)

/-- Takes a greatest entry out of a heap. -/
def pop : List (Entry n α) → Option (Entry n α × List (Entry n α))
  | [] => none
  | e :: rest =>
      match pop rest with
      | none => some (e, [])
      | some (top, others) =>
          if e.compare top = .lt then some (top, e :: others) else some (e, top :: others)

/-- The buffers of a search. -/
structure Dijkstra (n m : Nat) (α : Type) where
  /-- The length of the shortest path found so far, for the nodes reached. -/
  dist : Table α n
  /-- The last residual arc of that path, for the nodes reached but the start. -/
  pred : Table (Option (ResidualArc m)) n
  reached : Table Bool n
  done : Table Bool n
  /-- The nodes that are marked. -/
  touched : List (Fin n)
  /-- The nodes that are done, the last one first. -/
  settled : List (Fin n)
  heap : List (Entry n α)

namespace Dijkstra

/-- Buffers that were not used yet. -/
def new (n m : Nat) (α : Type) [Scalar α] : Dijkstra n m α where
  dist := .const n 0
  pred := .const n none
  reached := .const n false
  done := .const n false
  touched := []
  settled := []
  heap := []

/-- Takes the marks off some nodes. -/
def unmark (marks : Table Bool n) (nodes : List (Fin n)) : Table Bool n :=
  nodes.foldl (fun marks v => marks.set v false) marks

/-- The buffers when a run begins: the marks of the run before are cleared, and the start is
reached. -/
def begin (x : Dijkstra n m α) (s : Fin n) : Dijkstra n m α where
  dist := x.dist.set s 0
  pred := x.pred
  reached := (unmark x.reached x.touched).set s true
  done := unmark x.done x.touched
  touched := [s]
  settled := []
  heap := [⟨0, s⟩]

variable (p : Indexed n m α)

/-- Looks along a residual arc from a node at distance `d`. -/
def relax (st : State n m α) (delta : Int) (d : α) (x : Dijkstra n m α) (r : ResidualArc m) :
    Dijkstra n m α :=
  let v := p.target r
  let candidate := d + length p st r
  if p.room st.flow r < delta ∨ x.done[v] then x
  else if ¬ x.reached[v] ∨ candidate < x.dist[v] then
    { x with
      dist := x.dist.set v candidate
      pred := x.pred.set v (some r)
      reached := x.reached.set v true
      touched := if x.reached[v] then x.touched else v :: x.touched
      heap := ⟨candidate, v⟩ :: x.heap }
  else x

/-- What looking along a residual arc takes. -/
def relaxOperations (st : State n m α) (delta : Int) (d : α) (x : Dijkstra n m α)
    (r : ResidualArc m) : List (CostOperation α) :=
  if p.room st.flow r < delta ∨ x.done[p.target r] then []
  else p.reducedCostOperations p.cost st.potential r ++ [.add d (length p st r)]

/-- Marks a node as done. -/
def finish (x : Dijkstra n m α) (u : Fin n) : Dijkstra n m α :=
  { x with done := x.done.set u true, settled := u :: x.settled }

/-- Takes an entry out of the heap. If its node is not done yet, it is now, and the search ends
there or looks along the residual arcs that leave it. -/
def popStep (st : State n m α) (s : Fin n) (delta : Int) (x : Dijkstra n m α) :
    Step (Dijkstra n m α) (Dijkstra n m α × Option (Fin n)) :=
  match pop x.heap with
  | none => .done (x, none)
  | some (e, rest) =>
      let x := { x with heap := rest }
      if x.done[e.node] then .next x
      else
        let x := x.finish e.node
        if e.node ≠ s ∧ st.excess[e.node] ≤ -delta then .done (x, some e.node)
        else .next (p.rows[e.node].foldl (relax p st delta e.dist) x)

/-- What one step of the search takes. -/
def popOperations (st : State n m α) (s : Fin n) (delta : Int) (x : Dijkstra n m α) :
    List (CostOperation α) :=
  match pop x.heap with
  | none => []
  | some (e, rest) =>
      let x := { x with heap := rest }
      if x.done[e.node] then []
      else if e.node ≠ s ∧ st.excess[e.node] ≤ -delta then []
      else
        Scalar.foldOperations (relax p st delta e.dist) (relaxOperations p st delta e.dist)
          (x.finish e.node) p.rows[e.node].toList

/-- Searches for the deficit of at least `delta` that is nearest to `s`, and leaves the buffers for
the next run. -/
def run (st : State n m α) (s : Fin n) (delta : Int) (fuel : Nat) (x : Dijkstra n m α) :
    Except Interruption (Dijkstra n m α × Option (Fin n)) :=
  iterate fuel
    (fun x => Scalar.checked (x.popOperations p st s delta) (x.popStep p st s delta)) (x.begin s)

/-- What is read off the buffers when the search has ended at a deficit. -/
def route (s : Fin n) (x : Dijkstra n m α) (t : Fin n) : Route n m α where
  target := t
  dist := x.dist[t]
  path := pathBack p x.pred s n t
  settled := x.settled.map fun v => (v, x.dist[v])

end Dijkstra

end NetworkFlow.CapacityScaling
