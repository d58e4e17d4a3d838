import NetworkFlow.NetworkSimplex.Basis

/-!
# Pivots

Raising the flow of an entering arc, or lowering it if the arc carries all it can,
changes the flow around one cycle: from the join of the two ends down the tree to
the first end, over the entering arc to the second end, and up the tree to the
join. The arc of the cycle that allows least leaves the tree, and the part of the
tree that it cuts off is hung below the entering arc.

Which of several arcs leaves, when they allow equally little, is decided in favour
of the arc found last on the way from the join around the cycle, or, once the rule
that cannot cycle is in force, of the smallest number.
-/

namespace NetworkFlow.NetworkSimplex

variable {n m : Nat} {α : Type} [Scalar α] (t : Tableau n m α)

/-- The parent of a node; the root stays where it is. -/
def up (b : Basis n m α) (u : Fin (n + 1)) : Fin (n + 1) :=
  match own? u with
  | some v => b.parent[v]
  | none => u

/-- The node at which the ways from two nodes to the root meet, found in `count`
steps up. -/
def join (b : Basis n m α) : Nat → Fin (n + 1) → Fin (n + 1) → Fin (n + 1)
  | 0, u, _ => u
  | count + 1, u, v =>
      if u = v then u
      else if b.depth[v] < b.depth[u] then join b count (up b u) v
      else if b.depth[u] < b.depth[v] then join b count u (up b v)
      else join b count (up b u) (up b v)

/-- The nodes on the way up from `u` to `stop`, which is left out, `count` at most. -/
def wayUp (b : Basis n m α) (stop : Fin (n + 1)) : Nat → Fin (n + 1) → List (Fin n)
  | 0, _ => []
  | count + 1, u =>
      if u = stop then []
      else
        match own? u with
        | some v => v :: wayUp b stop count b.parent[v]
        | none => []

/-- The two sides of the cycle that an entering arc closes. -/
structure Cycle (n : Nat) where
  /-- The end at which the changed flow enters the arc. -/
  first : Fin (n + 1)
  /-- The end at which it leaves the arc. -/
  second : Fin (n + 1)
  /-- The nodes from the first end up to the join. -/
  firstSide : List (Fin n)
  /-- The nodes from the second end up to the join. -/
  secondSide : List (Fin n)

/-- The cycle of an entering arc. -/
def cycleOf (b : Basis n m α) (entering : Fin (m + n)) : Cycle n :=
  let raised := b.state[entering] = .lower
  let first := if raised then t.tail[entering] else t.head[entering]
  let second := if raised then t.head[entering] else t.tail[entering]
  let top := join b (b.depth[first] + b.depth[second]) first second
  { first, second
    firstSide := wayUp b top (n + 1) first
    secondSide := wayUp b top (n + 1) second }

/-- The link of a node leads up, to its parent. -/
def linkUp (b : Basis n m α) (v : Fin n) : Bool := t.tail[b.link[v]] = below v

/-- How much the flow of a node's link can change if it runs up the link's direction
(`rising`) or down. -/
def slack (b : Basis n m α) (v : Fin n) (rising : Bool) : Int :=
  let a := b.link[v]
  if linkUp t b v = rising then t.cap[a] - b.flow[a] else b.flow[a]

/-- The arc found so far that allows least. -/
structure Leaving (n m : Nat) where
  amount : Int
  arc : Fin (m + n)
  /-- The node whose link it is, and whether that is on the first side; nothing for
  the entering arc itself. -/
  place : Option (Fin n × Bool)

/-- Compares with the link of a node on the first side. -/
def limitFirst (b : Basis n m α) (l : Leaving n m) (v : Fin n) : Leaving n m :=
  let a := b.link[v]
  let d := slack t b v false
  if d < l.amount ∨ (b.bland ∧ d = l.amount ∧ a < l.arc) then ⟨d, a, some (v, true)⟩ else l

/-- Compares with the link of a node on the second side. -/
def limitSecond (b : Basis n m α) (l : Leaving n m) (v : Fin n) : Leaving n m :=
  let a := b.link[v]
  let d := slack t b v true
  if d < l.amount ∨ (d = l.amount ∧ (¬ b.bland ∨ a < l.arc)) then ⟨d, a, some (v, false)⟩
  else l

/-- The arc that leaves and the amount by which the flow changes. -/
def leavingOf (b : Basis n m α) (entering : Fin (m + n)) (c : Cycle n) : Leaving n m :=
  let l : Leaving n m := ⟨t.cap[entering], entering, none⟩
  c.secondSide.foldl (limitSecond t b) (c.firstSide.foldl (limitFirst t b) l)

/-- Changes the flow of a node's link by an amount that runs up to its parent
(`rising`) or down from it. -/
def shiftLink (amount : Int) (rising : Bool) (b : Basis n m α) (v : Fin n) : Basis n m α :=
  let a := b.link[v]
  let flow := b.flow[a]
  { b with
    flow := b.flow.set a (if linkUp t b v = rising then flow + amount else flow - amount) }

/-- Changes the flow around the cycle of an entering arc. -/
def shiftCycle (b : Basis n m α) (entering : Fin (m + n)) (c : Cycle n) (amount : Int) :
    Basis n m α :=
  let flow := b.flow[entering]
  let b :=
    { b with
      flow := b.flow.set entering
        (if b.state[entering] = .lower then flow + amount else flow - amount) }
  let b := c.firstSide.foldl (shiftLink t amount false) b
  c.secondSide.foldl (shiftLink t amount true) b

/-- Hangs the nodes of a stem, from an end of the entering arc up to the node whose
link leaves, each below the one before it. -/
def rehang (b : Basis n m α) : List (Fin n) → Fin (n + 1) → Fin (m + n) → Basis n m α
  | [], _, _ => b
  | v :: rest, parent, link =>
      let old := b.link[v]
      rehang ((b.detach v).attach v parent link) rest (below v) old

/-- The nodes of a side up to and including the node whose link leaves. -/
def stem (side : List (Fin n)) (last : Fin n) : List (Fin n) :=
  side.takeWhile (· ≠ last) ++ [last]

/-- The state of an arc that leaves the tree. -/
def restingState (b : Basis n m α) (a : Fin (m + n)) : ArcState :=
  if b.flow[a] = 0 then .lower else .upper

/-- The other resting state. -/
def ArcState.opposite : ArcState → ArcState
  | .lower => .upper
  | .tree => .tree
  | .upper => .lower

/-- Hangs the part of the tree that the link of a node cuts off below the entering
arc. Depths and potentials are as they were. -/
def regraft (b : Basis n m α) (entering : Fin (m + n)) (c : Cycle n) (l : Leaving n m)
    (v : Fin n) (onFirst : Bool) : Basis n m α :=
  let b := { b with state := (b.state.set entering .tree).set l.arc (restingState b l.arc) }
  let side := if onFirst then c.firstSide else c.secondSide
  let outer := if onFirst then c.second else c.first
  rehang b (stem side v) outer entering

/-- Exchanges the leaving arc for the entering arc. -/
def exchange (b : Basis n m α) (entering : Fin (m + n)) (c : Cycle n) (l : Leaving n m) :
    Basis n m α :=
  match l.place with
  | none => { b with state := b.state.set entering b.state[entering].opposite }
  | some (v, onFirst) =>
      let side := if onFirst then c.firstSide else c.secondSide
      Basis.refresh t (regraft b entering c l v onFirst) (n + 1) (side.take 1)

/-- What the exchange takes. -/
def exchangeOperations (b : Basis n m α) (entering : Fin (m + n)) (c : Cycle n)
    (l : Leaving n m) : List (CostOperation α) :=
  match l.place with
  | none => []
  | some (v, onFirst) =>
      let side := if onFirst then c.firstSide else c.secondSide
      Basis.refreshOperations t (regraft b entering c l v onFirst) (n + 1) (side.take 1)

/-- What a pivot does. -/
inductive Pivot (n m : Nat) (α : Type) where
  /-- The flow can change without bound. -/
  | unbounded
  /-- The flow changed. -/
  | progress (b : Basis n m α)
  /-- Only the tree changed. -/
  | degenerate (b : Basis n m α)

/-- Brings an entering arc into the tree. -/
def pivot (b : Basis n m α) (entering : Fin (m + n)) : Pivot n m α :=
  let c := cycleOf t b entering
  let l := leavingOf t b entering c
  if noCapacity / 2 < l.amount then .unbounded
  else
    let b := if 0 < l.amount then shiftCycle t b entering c l.amount else b
    let b := exchange t b entering c l
    if l.amount = 0 then .degenerate b else .progress b

/-- What bringing an entering arc into the tree takes. -/
def pivotOperations (b : Basis n m α) (entering : Fin (m + n)) : List (CostOperation α) :=
  let c := cycleOf t b entering
  let l := leavingOf t b entering c
  if noCapacity / 2 < l.amount then []
  else
    let b := if 0 < l.amount then shiftCycle t b entering c l.amount else b
    exchangeOperations t b entering c l

end NetworkFlow.NetworkSimplex
