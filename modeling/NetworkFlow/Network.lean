import NetworkFlow.Graph.Compressed

/-!
# Capacitated networks and their residual arcs

A `Network n m` has `m` arcs with capacities between `n` nodes. A flow gives
every arc an amount. What can still change a flow is said by its residual arcs:
arc `a` can carry more, up to its capacity, or less, down to zero; the second is
a residual arc that runs against `a`.

Residual arcs are numbered arc by arc, the forward one first, and every loop over
them goes in that order.
-/

namespace NetworkFlow

/-- Arcs with capacities between `n` nodes. -/
structure Network (n m : Nat) where
  tail : Table (Fin n) m
  head : Table (Fin n) m
  cap : Table Int m

/-- A way to change the flow on an arc: to raise it, or backward to lower it. -/
structure ResidualArc (m : Nat) where
  arc : Fin m
  backward : Bool
  deriving DecidableEq, Repr

namespace ResidualArc

variable {m : Nat}

/-- The residual arc that undoes this one. -/
def reverse (r : ResidualArc m) : ResidualArc m := ⟨r.arc, !r.backward⟩

/-- The residual arcs in the order of their numbers. -/
def all (m : Nat) : List (ResidualArc m) :=
  (List.finRange m).flatMap fun a => [⟨a, false⟩, ⟨a, true⟩]

theorem reverse_reverse (r : ResidualArc m) : r.reverse.reverse = r := by
  simp [reverse]

theorem mem_all (r : ResidualArc m) : r ∈ all m := by
  obtain ⟨a, backward⟩ := r
  cases backward <;> simp [all]

end ResidualArc

/-- Changes the flow along a residual arc by an amount. -/
def sendAlong {m : Nat} (flow : Table Int m) (r : ResidualArc m) (amount : Int) :
    Table Int m :=
  if r.backward then flow.set r.arc (flow[r.arc] - amount)
  else flow.set r.arc (flow[r.arc] + amount)

theorem getElem_sendAlong {m : Nat} (flow : Table Int m) (r : ResidualArc m) (amount : Int)
    (a : Fin m) :
    (sendAlong flow r amount)[a] =
      if r.arc = a then flow[a] + (if r.backward then -amount else amount) else flow[a] := by
  obtain ⟨b, backward⟩ := r
  by_cases h : b = a
  · subst h
    cases backward <;> simp [sendAlong, Int.sub_eq_add_neg]
  · cases backward <;> simp [sendAlong, Table.getElem_set, h]

namespace Network

variable {n m : Nat} (net : Network n m)

/-- The node that a residual arc leaves. -/
def source (r : ResidualArc m) : Fin n :=
  if r.backward then net.head[r.arc] else net.tail[r.arc]

/-- The node that a residual arc enters. -/
def target (r : ResidualArc m) : Fin n :=
  if r.backward then net.tail[r.arc] else net.head[r.arc]

/-- How much a residual arc can take. -/
def room (flow : Table Int m) (r : ResidualArc m) : Int :=
  if r.backward then flow[r.arc] else net.cap[r.arc] - flow[r.arc]

/-- The residual arcs that leave each node. -/
def rows : Compressed n (ResidualArc m) := .ofList net.source (ResidualArc.all m)

theorem source_reverse (r : ResidualArc m) : net.source r.reverse = net.target r := by
  obtain ⟨a, backward⟩ := r
  cases backward <;> rfl

theorem target_reverse (r : ResidualArc m) : net.target r.reverse = net.source r := by
  obtain ⟨a, backward⟩ := r
  cases backward <;> rfl

theorem getElem_rows (v : Fin n) :
    net.rows[v].toList = (ResidualArc.all m).filter (net.source · = v) :=
  Compressed.getElem_ofList ..

end Network

end NetworkFlow
