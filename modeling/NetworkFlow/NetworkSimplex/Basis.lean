import NetworkFlow.Algorithm
import NetworkFlow.NetworkSimplex.Siblings
import NetworkFlow.Problem

/-!
# Spanning trees with flows and potentials

The network simplex works on a problem with one more node, the root, and one more
arc for every node: an artificial arc between the node and the root, so dear that
an optimal flow uses it only if it has to. A `Tableau` is that larger problem.

A `Basis` is a spanning tree of it, hung below the root, with a flow: an arc
outside the tree carries nothing or all it can. The potentials make the reduced
cost of every arc of the tree zero. The root has no parent; every other node `v`
has a parent and a tree arc `link` that joins the two, in either direction.
-/

namespace NetworkFlow.NetworkSimplex

variable {n m : Nat} {α : Type} [Scalar α]

/-- Where the flow of an arc stands. -/
inductive ArcState where
  /-- Outside the tree, carrying all it can. -/
  | upper
  /-- In the tree. -/
  | tree
  /-- Outside the tree, carrying nothing. -/
  | lower
  deriving DecidableEq, Repr

/-- A problem with a root and artificial arcs. Its own arcs come first, then the
artificial arc of each node. -/
structure Tableau (n m : Nat) (α : Type) extends Network (n + 1) (m + n) where
  cost : Table α (m + n)
  tolerance : α
  rule : PivotRule
  /-- How many arcs a block search looks at before it takes the best one. -/
  blockSize : Nat

/-- A spanning tree with a flow and potentials. -/
structure Basis (n m : Nat) (α : Type) where
  flow : Table Int (m + n)
  state : Table ArcState (m + n)
  parent : Table (Fin (n + 1)) n
  /-- The tree arc between a node and its parent. -/
  link : Table (Fin (m + n)) n
  depth : Table Nat (n + 1)
  potential : Table α (n + 1)
  children : Siblings n
  /-- The rule that cannot cycle is in force. -/
  bland : Bool
  /-- Where the next search for an entering arc begins. -/
  cursor : Nat

/-- The root of the tree. -/
def root (n : Nat) : Fin (n + 1) := Fin.last n

/-- A node of the problem among the nodes of the tableau. -/
def below (v : Fin n) : Fin (n + 1) := v.castSucc

/-- The node of the problem that a node of the tableau is, unless it is the root. -/
def own? (u : Fin (n + 1)) : Option (Fin n) :=
  if h : u.val < n then some ⟨u, h⟩ else none

/-- The artificial arc of a node. -/
def artificial (m : Nat) (v : Fin n) : Fin (m + n) := Fin.natAdd m v

/-- An amount that stands for no capacity at all. -/
def noCapacity : Int := Amount.largest

namespace Tableau

/-- The least number of arcs that a block search looks at. -/
def leastBlock : Nat := 10

/-- The least number, at least one, whose square is not below `arcs`. -/
def blockRoot (arcs : Nat) : Nat :=
  ((List.range arcs).find? fun b => 1 ≤ b ∧ arcs ≤ b * b).getD (max arcs 1)

/-- The cost of an artificial arc: more than any path through the network can cost. -/
def artificialCost (p : Problem n m α) : Except Error α :=
  match Scalar.mul? (Scalar.ofCount (n + 1)) (Scalar.maxMagnitude 0 p.cost.toList + 1) with
  | some cost => .ok cost
  | none => .error .arithmeticOverflow

/-- What the cost of an artificial arc takes, but for the product. -/
def artificialCostOperations (p : Problem n m α) : List (CostOperation α) :=
  Scalar.magnitudeOperations p.cost.toList ++ [.add (Scalar.maxMagnitude 0 p.cost.toList) 1]

/-- The tableau of a problem. The artificial arc of a node leads to the root if the
node supplies, and away from it if the node demands. -/
def ofProblem (p : Problem n m α) (rule : PivotRule) (dear : α) : Tableau n m α where
  tail := p.tail.map below ++ Table.ofFn fun v => if p.supply[v] < 0 then root n else below v
  head := p.head.map below ++ Table.ofFn fun v => if p.supply[v] < 0 then below v else root n
  cap := p.cap ++ Table.const n noCapacity
  cost := p.cost ++ Table.const n dear
  tolerance := p.tolerance
  rule := rule
  blockSize := max (blockRoot (m + n)) leastBlock

end Tableau

namespace Basis

variable (t : Tableau n m α)

/-- The potential of a node such that the reduced cost of its link is zero. -/
def linkedPotential (b : Basis n m α) (v : Fin n) : α :=
  let a := b.link[v]
  if t.tail[a] = below v then b.potential[b.parent[v]] - t.cost[a]
  else b.potential[b.parent[v]] + t.cost[a]

/-- What the potential of a node takes. -/
def linkOperations (b : Basis n m α) (v : Fin n) : List (CostOperation α) :=
  let a := b.link[v]
  if t.tail[a] = below v then [.sub b.potential[b.parent[v]] t.cost[a]]
  else [.add b.potential[b.parent[v]] t.cost[a]]

/-- Sets the depth and potential of a node from its parent. -/
def settle (b : Basis n m α) (v : Fin n) : Basis n m α :=
  let potential := linkedPotential t b v
  { b with
    depth := b.depth.set (below v) (b.depth[b.parent[v]] + 1)
    potential := b.potential.set (below v) potential }

/-- Sets depths and potentials below a layer of nodes, layer by layer. -/
def refresh (b : Basis n m α) : Nat → List (Fin n) → Basis n m α
  | 0, _ => b
  | _ + 1, [] => b
  | count + 1, layer =>
      let b := layer.foldl (settle t) b
      refresh b count (layer.flatMap fun v => b.children[below v])

/-- What setting potentials below a layer of nodes takes. -/
def refreshOperations (b : Basis n m α) : Nat → List (Fin n) → List (CostOperation α)
  | 0, _ => []
  | _ + 1, [] => []
  | count + 1, layer =>
      let b' := layer.foldl (settle t) b
      Scalar.foldOperations (settle t) (linkOperations t) b layer ++
        refreshOperations b' count (layer.flatMap fun v => b'.children[below v])

/-- Makes a node the first child of its new parent. -/
def attach (b : Basis n m α) (v : Fin n) (parent : Fin (n + 1)) (link : Fin (m + n)) :
    Basis n m α :=
  { b with
    parent := b.parent.set v parent
    link := b.link.set v link
    children := b.children.link v parent }

/-- Takes a node out of the children of its parent. -/
def detach (b : Basis n m α) (v : Fin n) : Basis n m α :=
  { b with children := b.children.unlink v b.parent[v] }

/-- The tree in which every node hangs below the root by its artificial arc, before
the potentials are set. -/
def unsettled (p : Problem n m α) : Basis n m α where
  flow := Table.const m (0 : Int) ++ p.supply.map fun s => (s.natAbs : Int)
  state := Table.const m ArcState.lower ++ Table.const n ArcState.tree
  parent := .const n (root n)
  link := .ofFn (artificial m)
  depth := .const (n + 1) 0
  potential := .const (n + 1) 0
  children := (List.finRange n).foldl (fun s v => s.link v (root n)) (.empty n)
  bland := t.rule = .bland
  cursor := 0

/-- The tree in which every node hangs below the root by its artificial arc. -/
def start (p : Problem n m α) : Basis n m α :=
  refresh t (unsettled t p) (n + 1) (unsettled t p).children[root n]

/-- What the potentials of the first tree take. -/
def startOperations (p : Problem n m α) : List (CostOperation α) :=
  refreshOperations t (unsettled t p) (n + 1) (unsettled t p).children[root n]

end Basis

end NetworkFlow.NetworkSimplex
