import NetworkFlow.NetworkSimplex.Basis

/-!
# The search for the entering arc

An arc outside the tree violates optimality if changing its flow would make the
flow cheaper: it carries nothing and its reduced cost is negative, or it carries
all it can and its reduced cost is positive. The search returns a violating arc if
there is one; which one, and where the next search begins, is up to the rule.
-/

namespace NetworkFlow.NetworkSimplex

variable {n m : Nat} {α : Type} [Scalar α] (t : Tableau n m α)

/-- The cost of an arc after the potentials of its ends are taken into account. -/
def reducedCost (b : Basis n m α) (a : Fin (m + n)) : α :=
  t.cost[a] + b.potential[t.tail[a]] - b.potential[t.head[a]]

/-- What the reduced cost of an arc takes. -/
def reducedCostOperations (b : Basis n m α) (a : Fin (m + n)) : List (CostOperation α) :=
  [.add t.cost[a] b.potential[t.tail[a]],
    .sub (t.cost[a] + b.potential[t.tail[a]]) b.potential[t.head[a]]]

/-- By how much an arc violates optimality, if it does. -/
def violation (b : Basis n m α) (a : Fin (m + n)) : Option α :=
  match b.state[a] with
  | .lower => if reducedCost t b a < -t.tolerance then some (-reducedCost t b a) else none
  | .upper => if t.tolerance < reducedCost t b a then some (reducedCost t b a) else none
  | .tree => none

/-- What it takes to tell by how much an arc violates optimality. -/
def violationOperations (b : Basis n m α) (a : Fin (m + n)) : List (CostOperation α) :=
  match b.state[a] with
  | .lower =>
      reducedCostOperations t b a ++ .neg t.tolerance ::
        if reducedCost t b a < -t.tolerance then [.neg (reducedCost t b a)] else []
  | .upper => reducedCostOperations t b a
  | .tree => []

/-- The better of the best violating arc so far and one more arc; among equals the first. -/
def better (b : Basis n m α) (best : Option (Fin (m + n) × α)) (a : Fin (m + n)) :
    Option (Fin (m + n) × α) :=
  match violation t b a, best with
  | none, _ => best
  | some v, none => some (a, v)
  | some v, some (_, w) => if w < v then some (a, v) else best

/-- The arcs in their cyclic order from the cursor. -/
def fromCursor (b : Basis n m α) : List (Fin (m + n)) :=
  (List.finRange (m + n)).drop b.cursor ++ (List.finRange (m + n)).take b.cursor

/-- The place after an arc in the cyclic order. -/
def after (a : Fin (m + n)) : Nat := (a + 1) % (m + n)

/-- Looks at arcs in blocks and stops at the end of the first block that holds a
violating arc, with the best one of that block. A last block that is shorter
leaves the cursor where it is. -/
def searchBlocks (b : Basis n m α) (size : Nat) :
    List (Fin (m + n)) → Nat → Option (Fin (m + n) × α) → Option (Fin (m + n)) × Nat
  | [], _, best => (best.map (·.1), b.cursor)
  | a :: rest, scanned, best =>
      let best := better t b best a
      if scanned + 1 = size then
        match best with
        | some (entering, _) => (some entering, after a)
        | none => searchBlocks b size rest 0 none
      else searchBlocks b size rest (scanned + 1) best

/-- The first violating arc from the cursor on. -/
def searchFirst (b : Basis n m α) : Option (Fin (m + n)) × Nat :=
  match (fromCursor b).find? fun a => (violation t b a).isSome with
  | some a => (some a, after a)
  | none => (none, b.cursor)

/-- The most violating arc of all. -/
def searchBest (b : Basis n m α) : Option (Fin (m + n)) :=
  ((List.finRange (m + n)).foldl (better t b) none).map (·.1)

/-- The violating arc of smallest number. -/
def searchSmallest (b : Basis n m α) : Option (Fin (m + n)) :=
  (List.finRange (m + n)).find? fun a => (violation t b a).isSome

/-- The entering arc, if an arc violates optimality, and where the next search begins. -/
def findEntering (b : Basis n m α) : Option (Fin (m + n)) × Nat :=
  if b.bland then (searchSmallest t b, b.cursor)
  else
    match t.rule with
    | .firstEligible => searchFirst t b
    | .bestEligible => (searchBest t b, b.cursor)
    | .blockSearch | .bland => searchBlocks t b t.blockSize (fromCursor b) 0 none

/-- The arcs of a list up to the first violating one. -/
def upToFirst (b : Basis n m α) : List (Fin (m + n)) → List (Fin (m + n))
  | [] => []
  | a :: rest => a :: if (violation t b a).isSome then [] else upToFirst b rest

/-- The arcs of a list up to the end of the first block that holds a violating arc. -/
def upToBlock (b : Basis n m α) (size : Nat) :
    List (Fin (m + n)) → Nat → Bool → List (Fin (m + n))
  | [], _, _ => []
  | a :: rest, scanned, found =>
      let found := found || (violation t b a).isSome
      a ::
        if scanned + 1 = size then if found then [] else upToBlock b size rest 0 false
        else upToBlock b size rest (scanned + 1) found

/-- The arcs that the search for the entering arc looks at. -/
def lookedAt (b : Basis n m α) : List (Fin (m + n)) :=
  if b.bland then upToFirst t b (List.finRange (m + n))
  else
    match t.rule with
    | .firstEligible => upToFirst t b (fromCursor b)
    | .bestEligible => List.finRange (m + n)
    | .blockSearch | .bland => upToBlock t b t.blockSize (fromCursor b) 0 false

/-- What the search for the entering arc takes. -/
def enteringOperations (b : Basis n m α) : List (CostOperation α) :=
  (lookedAt t b).flatMap (violationOperations t b)

end NetworkFlow.NetworkSimplex
