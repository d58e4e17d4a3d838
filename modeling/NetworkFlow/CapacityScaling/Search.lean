import NetworkFlow.Problem

/-!
# The nearest deficit

A shortest path search over the residual arcs whose room is at least `delta`,
with reduced costs as lengths (a negative one counts as zero). Starting at `s`, it
settles the nearest unsettled node, the smaller number first among equals, and
ends at the first node other than `s` whose deficit is at least `delta`.

Every step settles a node, so one step more than there are nodes is enough.
-/

namespace NetworkFlow.CapacityScaling

variable {n m : Nat} {α : Type} [Scalar α]

/-- A flow within the capacities, its potentials and what the nodes hold. -/
structure State (n m : Nat) (α : Type) where
  flow : Table Int m
  potential : Table α n
  /-- What a node still has to get rid of; negative if it still needs some. -/
  excess : Table Int n

/-- A problem with its residual arcs by the node they leave. -/
structure Indexed (n m : Nat) (α : Type) extends Problem n m α where
  rows : Compressed n (ResidualArc m)

/-- What a search knows of the nodes. -/
structure Search (n m : Nat) (α : Type) where
  /-- The length of the shortest path found so far, for the nodes reached. -/
  dist : Table (Option α) n
  /-- The last residual arc of that path. -/
  pred : Table (Option (ResidualArc m)) n
  settled : Table Bool n
  /-- The settled nodes with their distances, the last one first. -/
  order : List (Fin n × α)

/-- A way from the start of a search to a deficit. -/
structure Route (n m : Nat) (α : Type) where
  target : Fin n
  dist : α
  /-- The residual arcs of the way, the last one first. -/
  path : List (ResidualArc m)
  /-- The settled nodes with their distances. -/
  settled : List (Fin n × α)

variable (p : Indexed n m α)

/-- The search that knows only its start. -/
def Search.start (s : Fin n) : Search n m α where
  dist := (Table.const n none).set s (some 0)
  pred := .const n none
  settled := .const n false
  order := []

/-- The nearest node that is reached but not settled. -/
def Search.nearest (q : Search n m α) : Option (Fin n × α) :=
  (List.finRange n).foldl
    (fun best v =>
      match q.settled[v], q.dist[v], best with
      | false, some d, none => some (v, d)
      | false, some d, some (u, b) => if d < b then some (v, d) else some (u, b)
      | _, _, _ => best)
    none

/-- The length of a residual arc. -/
def length (st : State n m α) (r : ResidualArc m) : α :=
  let reduced := p.reducedCost p.cost st.potential r
  if reduced < 0 then 0 else reduced

/-- A path of length `candidate` is better than what is known of a node. -/
def better (candidate : α) : Option α → Bool
  | none => true
  | some old => candidate < old

/-- Looks along a residual arc from a node at distance `d`. -/
def look (st : State n m α) (delta : Int) (d : α) (q : Search n m α) (r : ResidualArc m) :
    Search n m α :=
  let v := p.target r
  let candidate := d + length p st r
  if p.room st.flow r < delta ∨ q.settled[v] then q
  else if better candidate q.dist[v] then
    { q with dist := q.dist.set v (some candidate), pred := q.pred.set v (some r) }
  else q

/-- What looking along a residual arc takes. -/
def lookOperations (st : State n m α) (delta : Int) (d : α) (q : Search n m α)
    (r : ResidualArc m) : List (CostOperation α) :=
  if p.room st.flow r < delta ∨ q.settled[p.target r] then []
  else p.reducedCostOperations p.cost st.potential r ++ [.add d (length p st r)]

/-- The residual arcs from a node back to the start of a search, `count` at most. -/
def pathBack (pred : Table (Option (ResidualArc m)) n) (s : Fin n) :
    Nat → Fin n → List (ResidualArc m)
  | 0, _ => []
  | count + 1, v =>
      if v = s then []
      else
        match pred[v] with
        | none => []
        | some r => r :: pathBack pred s count (p.source r)

/-- Settles nodes until a deficit is found, `count` nodes at most. -/
def searchFrom (st : State n m α) (s : Fin n) (delta : Int) :
    Nat → Search n m α → Option (Route n m α)
  | 0, _ => none
  | count + 1, q =>
      match q.nearest with
      | none => none
      | some (u, d) =>
          let q := { q with settled := q.settled.set u true, order := (u, d) :: q.order }
          if u ≠ s ∧ st.excess[u] ≤ -delta then
            some { target := u, dist := d, path := pathBack p q.pred s n u, settled := q.order }
          else searchFrom st s delta count (p.rows[u].foldl (look p st delta d) q)

/-- A shortest way from `s` to a deficit of at least `delta`. -/
def nearestDeficit (st : State n m α) (s : Fin n) (delta : Int) : Option (Route n m α) :=
  searchFrom p st s delta (n + 1) (Search.start s)

/-- What settling nodes until a deficit is found takes. -/
def searchOperations (st : State n m α) (s : Fin n) (delta : Int) :
    Nat → Search n m α → List (CostOperation α)
  | 0, _ => []
  | count + 1, q =>
      match q.nearest with
      | none => []
      | some (u, d) =>
          let q := { q with settled := q.settled.set u true, order := (u, d) :: q.order }
          if u ≠ s ∧ st.excess[u] ≤ -delta then []
          else
            Scalar.foldOperations (look p st delta d) (lookOperations p st delta d) q
                p.rows[u].toList ++
              searchOperations st s delta count (p.rows[u].foldl (look p st delta d) q)

/-- What the search for a shortest way takes. -/
def deficitOperations (st : State n m α) (s : Fin n) (delta : Int) : List (CostOperation α) :=
  searchOperations p st s delta (n + 1) (Search.start s)

end NetworkFlow.CapacityScaling
