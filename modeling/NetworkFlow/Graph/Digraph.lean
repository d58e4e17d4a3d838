import NetworkFlow.Error
import NetworkFlow.Graph.Key

/-!
# Directed multigraphs

A `Digraph` has nodes `0, 1, …` and a list of arcs, each with a tail and a head
among the nodes; loops and parallel arcs are allowed. It is what the two kinds
of graphs have in common, and all that a solver looks at.

Keys are handed out for numbers below the count of their kind (`key`) and
accepted if they carry this graph's identity and such a number (`check`).
-/

namespace NetworkFlow

/-- The end points of an arc. -/
structure Ends where
  tail : Nat
  head : Nat
  deriving DecidableEq, Repr

/-- Both end points are below a number of nodes. -/
def Ends.Below (nodes : Nat) (e : Ends) : Prop := e.tail < nodes ∧ e.head < nodes

instance (nodes : Nat) (e : Ends) : Decidable (e.Below nodes) :=
  inferInstanceAs (Decidable (_ ∧ _))

/-- A finite directed multigraph. -/
structure Digraph where
  id : GraphId
  nodeCount : Nat
  /-- The arcs, by number. -/
  ends : Array Ends
  below : ∀ e ∈ ends, e.Below nodeCount

namespace Digraph

/-- The graph without nodes. -/
def empty (id : GraphId) : Digraph where
  id := id
  nodeCount := 0
  ends := #[]
  below := by simp

variable (g : Digraph)

/-- The number of arcs. -/
def arcCount : Nat := g.ends.size

/-- The number of nodes or of arcs. -/
def count : KeyKind → Nat
  | .node => g.nodeCount
  | .arc => g.arcCount

/-- The key with a given number. -/
def key (kind : KeyKind) (index : Nat) : Except Error (Key kind) :=
  if index < g.count kind then .ok ⟨g.id, index⟩ else .error .indexOutOfRange

/-- The node with a given number. -/
def node (index : Nat) : Except Error Node := g.key .node index

/-- The arc with a given number. -/
def arc (index : Nat) : Except Error Arc := g.key .arc index

/-- All keys of a kind, in order. -/
def keys (kind : KeyKind) : List (Key kind) :=
  (List.range (g.count kind)).map (⟨g.id, ·⟩)

/-- The number of a key, if the key belongs to this graph. -/
def check {kind : KeyKind} (key : Key kind) : Except Error (Fin (g.count kind)) :=
  if key.graph = g.id then
    if h : key.index < g.count kind then .ok ⟨key.index, h⟩ else .error .indexOutOfRange
  else .error .foreignIdentity

/-- The tail of an arc. -/
def tail (a : Fin g.arcCount) : Fin g.nodeCount :=
  have h : a.val < g.ends.size := a.isLt
  ⟨g.ends[a].tail, (g.below _ (Array.getElem_mem h)).1⟩

/-- The head of an arc. -/
def head (a : Fin g.arcCount) : Fin g.nodeCount :=
  have h : a.val < g.ends.size := a.isLt
  ⟨g.ends[a].head, (g.below _ (Array.getElem_mem h)).2⟩

/-- The node that an arc leaves. -/
def source (arc : Arc) : Except Error Node := do
  let a ← g.check arc
  return ⟨g.id, g.tail a⟩

/-- The node that an arc enters. -/
def target (arc : Arc) : Except Error Node := do
  let a ← g.check arc
  return ⟨g.id, g.head a⟩

theorem check_eq_ok {kind : KeyKind} {key : Key kind} {i : Fin (g.count kind)} :
    g.check key = .ok i ↔ key = ⟨g.id, i⟩ := by
  obtain ⟨graph, index⟩ := key
  unfold check
  by_cases hGraph : graph = g.id
  · by_cases hIndex : index < g.count kind
    · simp [hGraph, hIndex, Fin.ext_iff]
    · have hne : index ≠ i := fun h => hIndex (h ▸ i.isLt)
      simp [hGraph, hIndex, hne]
  · simp [hGraph]

theorem check_key {kind : KeyKind} {index : Nat} (h : index < g.count kind) :
    (g.key kind index).bind g.check = .ok ⟨index, h⟩ := by
  simp [key, h, Except.bind, check]

end Digraph

end NetworkFlow
