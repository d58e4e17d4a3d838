import NetworkFlow.Graph.Digraph
import NetworkFlow.Logged

/-!
# Graphs that grow

A `ListDigraph` starts empty and gets nodes and arcs one at a time. Nothing is
ever taken away, so keys stay good and numbers stay dense. A copy keeps the
identity, so maps of one copy also serve the other.
-/

namespace NetworkFlow

/-- A directed multigraph that grows by nodes and arcs. -/
structure ListDigraph extends Digraph

namespace ListDigraph

/-- The graph without nodes. -/
def empty (id : GraphId) : ListDigraph := { Digraph.empty id with }

/-- Adds a node. -/
def addNode (g : ListDigraph) : ListDigraph × Node :=
  ({ g with
      nodeCount := g.nodeCount + 1
      below := fun e he =>
        ⟨Nat.lt_succ_of_lt (g.below e he).1, Nat.lt_succ_of_lt (g.below e he).2⟩ },
    ⟨g.id, g.nodeCount⟩)

/-- Adds an arc between two numbers of nodes. -/
def addEnds (g : ListDigraph) (tail head : Fin g.nodeCount) : ListDigraph where
  id := g.id
  nodeCount := g.nodeCount
  ends := g.ends.push ⟨tail, head⟩
  below := fun e he => by
    rcases Array.mem_push.1 he with h | h
    · exact g.below e h
    · subst h
      exact ⟨tail.isLt, head.isLt⟩

/-- Adds an arc between two nodes of the graph. -/
def addArc (g : ListDigraph) (tail head : Node) : Logged (ListDigraph × Arc) := do
  let t ← g.check tail
  let h ← g.check head
  Logged.report (.arcAdded g.arcCount t h)
  return (g.addEnds t h, ⟨g.id, g.arcCount⟩)

/-- The arcs that leave a node, in the order of their numbers. -/
def outArcs (g : ListDigraph) (node : Node) : Except Error (List Arc) := do
  let v : Fin g.nodeCount ← g.check node
  return ((List.finRange g.arcCount).filter fun a => g.tail a = v).map fun a => ⟨g.id, a.val⟩

/-- The arcs that enter a node, in the order of their numbers. -/
def inArcs (g : ListDigraph) (node : Node) : Except Error (List Arc) := do
  let v : Fin g.nodeCount ← g.check node
  return ((List.finRange g.arcCount).filter fun a => g.head a = v).map fun a => ⟨g.id, a.val⟩

end ListDigraph

end NetworkFlow
