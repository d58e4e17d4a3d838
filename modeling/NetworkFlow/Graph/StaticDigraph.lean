import NetworkFlow.Graph.Compressed
import NetworkFlow.Graph.Digraph
import NetworkFlow.Logged

/-!
# Graphs built once

A `StaticDigraph` is built from a number of nodes and a list of pairs: arc `j` is
the `j`-th pair. Building sorts the arcs by tail and by head; after that the
graph never changes. A build that is refused leaves the graph as it was.
-/

namespace NetworkFlow

/-- A directed multigraph that is built from all its arcs at once. -/
structure StaticDigraph extends Digraph where
  built : Bool
  /-- The arcs by tail. -/
  outgoing : Compressed nodeCount (Fin toDigraph.arcCount)
  /-- The arcs by head. -/
  incoming : Compressed nodeCount (Fin toDigraph.arcCount)

namespace StaticDigraph

/-- The largest number of nodes and of arcs. -/
def countLimit : Nat := 4294967295

/-- The graph with given arcs, sorted by tail and by head. -/
def ofDigraph (g : Digraph) (built : Bool) : StaticDigraph where
  toDigraph := g
  built := built
  outgoing := .ofList g.tail (List.finRange g.arcCount)
  incoming := .ofList g.head (List.finRange g.arcCount)

/-- The graph before it is built. -/
def empty (id : GraphId) : StaticDigraph :=
  ofDigraph (Digraph.empty id) false

/-- Builds the graph from a number of nodes and the end points of its arcs. -/
def build (g : StaticDigraph) (nodes : Nat) (pairs : Array Ends) : Logged StaticDigraph :=
  if g.built then .refuse .alreadyBuilt
  else if countLimit < nodes then .refuse .indexOutOfRange
  else if h : ∀ e ∈ pairs, e.Below nodes then
    if countLimit < pairs.size then .refuse .indexOutOfRange
    else do
      Logged.report (.graphBuilt nodes pairs.size)
      return ofDigraph { id := g.id, nodeCount := nodes, ends := pairs, below := h } true
  else .refuse .indexOutOfRange

/-- The graph built from its arcs right away. -/
def ofEnds (id : GraphId) (nodes : Nat) (pairs : Array Ends) : Logged StaticDigraph :=
  (empty id).build nodes pairs

/-- The arcs that leave a node, in the order of their numbers. -/
def outArcs (g : StaticDigraph) (node : Node) : Except Error (List Arc) := do
  let v : Fin g.nodeCount ← g.check node
  return g.outgoing[v].toList.map fun a => ⟨g.id, a.val⟩

/-- The arcs that enter a node, in the order of their numbers. -/
def inArcs (g : StaticDigraph) (node : Node) : Except Error (List Arc) := do
  let v : Fin g.nodeCount ← g.check node
  return g.incoming[v].toList.map fun a => ⟨g.id, a.val⟩

end StaticDigraph

end NetworkFlow
