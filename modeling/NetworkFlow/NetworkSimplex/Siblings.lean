import NetworkFlow.Table

/-!
# Siblings

The children of a node of a tree are a doubly linked list: the node knows its first
child, and every child the ones before and after it. Putting a node in front and
taking one out are a few writes each, however many siblings there are; neither
looks at more of a list than the neighbours of the node.

`s[u]` are the children of `u` in order. The root has no siblings, so only the
other nodes have places in the tables of neighbours.
-/

namespace NetworkFlow.NetworkSimplex

/-- The children of every node as linked lists. -/
structure Siblings (n : Nat) where
  /-- The first child of a node. -/
  first : Table (Option (Fin n)) (n + 1)
  /-- The sibling after a node. -/
  next : Table (Option (Fin n)) n
  /-- The sibling before a node. -/
  prev : Table (Option (Fin n)) n

namespace Siblings

variable {n : Nat}

/-- No node has children. -/
def empty (n : Nat) : Siblings n where
  first := .const (n + 1) none
  next := .const n none
  prev := .const n none

/-- A node and its siblings after it, `count` at most. -/
def chain (s : Siblings n) : Nat → Option (Fin n) → List (Fin n)
  | 0, _ => []
  | _ + 1, none => []
  | count + 1, some v => v :: chain s count s.next[v]

/-- The children of a node. A list without repetition is no longer than there are nodes. -/
def get (s : Siblings n) (u : Fin (n + 1)) : List (Fin n) := s.chain n s.first[u]

instance : GetElem (Siblings n) (Fin (n + 1)) (List (Fin n)) fun _ _ => True where
  getElem s u _ := s.get u

/-- Makes a node the first child of another one. -/
def link (s : Siblings n) (v : Fin n) (parent : Fin (n + 1)) : Siblings n :=
  let head := s.first[parent]
  let prev := s.prev.set v none
  { first := s.first.set parent (some v)
    next := s.next.set v head
    prev := match head with
      | some w => prev.set w (some v)
      | none => prev }

/-- Takes a node out of the children of its parent. -/
def unlink (s : Siblings n) (v : Fin n) (parent : Fin (n + 1)) : Siblings n :=
  let before := s.prev[v]
  let after := s.next[v]
  { first := match before with
      | some _ => s.first
      | none => s.first.set parent after
    next := match before with
      | some w => s.next.set w after
      | none => s.next
    prev := match after with
      | some w => s.prev.set w before
      | none => s.prev }

end Siblings

end NetworkFlow.NetworkSimplex
