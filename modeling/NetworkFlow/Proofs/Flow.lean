import Mathlib.Algebra.BigOperators.Fin
import Mathlib.Algebra.BigOperators.Ring.Finset
import Mathlib.Algebra.Order.BigOperators.Group.Finset
import Mathlib.Tactic.Linarith
import Mathlib.Tactic.Ring
import NetworkFlow.Problem

/-!
# Feasible flows, their costs and when they are optimal

What an engine promises is said here, apart from every engine: a flow is
feasible if it stays within the capacities and meets the supplies, and it is
optimal if no feasible flow costs less.

Every argument about the engines comes down to one identity, `sum_mul_outflow`:
a weight on the nodes, summed over what leaves them, is the sum over the arcs of
the flow times the drop of the weight along the arc. With potentials as weights
it turns reduced costs into costs; with the indicator of a set of nodes it
compares what two flows carry out of that set.

## Main results

* `Certifies.optimal`: potentials that leave no residual arc with a negative
  reduced cost prove a feasible flow to be optimal.
* `sum_outflow_le_of_closed`: a flow carries as much as any flow can out of a
  set of nodes that no residual arc leaves.
* `Within.slack_lt`: what makes a flow cheaper cannot go on for ever.
* `not_feasible_of_closed`: if the supplies of such a set exceed what the flow
  carries out of it, no flow is feasible.
-/

namespace NetworkFlow

open Finset

variable {n m : Nat}

/-- What a flow costs at given costs of the arcs. -/
def costOf (cost flow : Table Int m) : Int := ∑ a : Fin m, cost[a] * flow[a]

namespace Network

variable (net : Network n m)

/-- What a flow takes out of a node in excess of what it brings in. -/
def outflow (flow : Table Int m) (v : Fin n) : Int :=
  ∑ a : Fin m, ((if net.tail[a] = v then flow[a] else 0) - if net.head[a] = v then flow[a] else 0)

/-- No arc carries less than nothing or more than its capacity. -/
def Within (flow : Table Int m) : Prop := ∀ a : Fin m, 0 ≤ flow[a] ∧ flow[a] ≤ net.cap[a]

instance (flow : Table Int m) : Decidable (net.Within flow) :=
  inferInstanceAs (Decidable (∀ a : Fin m, 0 ≤ flow[a] ∧ flow[a] ≤ net.cap[a]))

/-- No residual arc with room leaves a set of nodes. -/
def Closed (flow : Table Int m) (nodes : Finset (Fin n)) : Prop :=
  ∀ r, 0 < net.room flow r → net.source r ∈ nodes → net.target r ∈ nodes

/-- Weights on the nodes, summed over what leaves them, are the drops of the
weight along the arcs, summed over the flow. -/
theorem sum_mul_outflow (weight : Fin n → Int) (flow : Table Int m) :
    ∑ v, weight v * net.outflow flow v =
      ∑ a : Fin m, (weight net.tail[a] - weight net.head[a]) * flow[a] := by
  simp only [outflow, mul_sum]
  rw [sum_comm]
  apply sum_congr rfl
  intro a _
  simp only [mul_sub, mul_ite, mul_zero, sum_sub_distrib, sum_ite_eq, mem_univ, if_true, sub_mul]

/-- All that leaves one node enters another one. -/
theorem sum_outflow (flow : Table Int m) : ∑ v, net.outflow flow v = 0 := by
  have h := net.sum_mul_outflow (fun _ => 1) flow
  simpa using h

/-- What a flow takes out of a set of nodes. -/
theorem sum_outflow_mem (nodes : Finset (Fin n)) (flow : Table Int m) :
    ∑ v ∈ nodes, net.outflow flow v =
      ∑ a : Fin m, ((if net.tail[a] ∈ nodes then 1 else 0) -
        if net.head[a] ∈ nodes then 1 else 0) * flow[a] := by
  rw [← net.sum_mul_outflow (fun v => if v ∈ nodes then 1 else 0) flow]
  simp only [ite_mul, one_mul, zero_mul, sum_ite_mem, univ_inter]

theorem room_forward (flow : Table Int m) (a : Fin m) :
    net.room flow ⟨a, false⟩ = net.cap[a] - flow[a] := rfl

theorem room_backward (flow : Table Int m) (a : Fin m) :
    net.room flow ⟨a, true⟩ = flow[a] := rfl

theorem Within.room_nonneg {net : Network n m} {flow : Table Int m} (h : net.Within flow)
    (r : ResidualArc m) : 0 ≤ net.room flow r := by
  obtain ⟨a, backward⟩ := r
  obtain ⟨hlo, hhi⟩ := h a
  cases backward
  · rw [room_forward]
    omega
  · rwa [room_backward]

/-- Out of a set of nodes a flow carries as much as another one unless some residual arc that
leaves the set would have to take more. -/
theorem sum_outflow_le_of_room {flow other : Table Int m} {nodes : Finset (Fin n)}
    (hclosed : ∀ r, net.room other r < net.room flow r → net.source r ∈ nodes →
      net.target r ∈ nodes) :
    ∑ v ∈ nodes, net.outflow other v ≤ ∑ v ∈ nodes, net.outflow flow v := by
  rw [net.sum_outflow_mem, net.sum_outflow_mem]
  apply sum_le_sum
  intro a _
  -- an arc matters only if it crosses the border
  by_cases ht : net.tail[a] ∈ nodes <;> by_cases hh : net.head[a] ∈ nodes
  · simp [ht, hh]
  · have houtward : ¬ net.room other ⟨a, false⟩ < net.room flow ⟨a, false⟩ :=
      fun h => hh (hclosed _ h ht)
    rw [room_forward, room_forward] at houtward
    simp only [ht, hh, if_true, if_false]
    omega
  · have hinward : ¬ net.room other ⟨a, true⟩ < net.room flow ⟨a, true⟩ :=
      fun h => ht (hclosed _ h hh)
    rw [room_backward, room_backward] at hinward
    simp only [ht, hh, if_true, if_false]
    omega
  · simp [ht, hh]

/-- Out of a set of nodes that no residual arc leaves, a flow carries as much as
any other one. -/
theorem sum_outflow_le_of_closed {flow other : Table Int m} {nodes : Finset (Fin n)}
    (hclosed : net.Closed flow nodes) (hother : net.Within other) :
    ∑ v ∈ nodes, net.outflow other v ≤ ∑ v ∈ nodes, net.outflow flow v :=
  net.sum_outflow_le_of_room fun r hless => hclosed r ((hother.room_nonneg r).trans_lt hless)

/-- Sending an amount along a residual arc takes it out of one end and into the other. -/
theorem outflow_sendAlong (flow : Table Int m) (r : ResidualArc m) (amount : Int) (v : Fin n) :
    net.outflow (sendAlong flow r amount) v =
      net.outflow flow v + ((if net.source r = v then amount else 0) -
        if net.target r = v then amount else 0) := by
  obtain ⟨b, backward⟩ := r
  have hterm : ∀ a : Fin m,
      ((if net.tail[a] = v then (sendAlong flow ⟨b, backward⟩ amount)[a] else 0) -
        if net.head[a] = v then (sendAlong flow ⟨b, backward⟩ amount)[a] else 0) =
      ((if net.tail[a] = v then flow[a] else 0) - if net.head[a] = v then flow[a] else 0) +
        if b = a then (if backward then -amount else amount) *
          ((if net.tail[b] = v then 1 else 0) - if net.head[b] = v then 1 else 0) else 0 := by
    intro a
    rw [getElem_sendAlong]
    by_cases hab : b = a
    · subst hab
      simp only [if_true]
      split_ifs <;> ring
    · simp only [hab, if_false, add_zero]
  unfold outflow
  rw [sum_congr rfl fun a _ => hterm a, sum_add_distrib, sum_ite_eq]
  cases backward <;> simp only [source, target, mem_univ, if_true, Bool.false_eq_true, if_false] <;>
    split_ifs <;> ring

/-- How much cheaper than this flow a flow within the capacities might be. -/
def slack (cost flow : Table Int m) : Nat :=
  (costOf cost flow + ∑ a : Fin m, |cost[a]| * net.cap[a]).toNat

/-- What lowers the cost of a flow within the capacities can be done only so often. -/
theorem Within.slack_lt {net : Network n m} {cost flow other : Table Int m}
    (h : net.Within other) (hless : costOf cost other < costOf cost flow) :
    net.slack cost other < net.slack cost flow := by
  have hbound : 0 ≤ costOf cost other + ∑ a : Fin m, |cost[a]| * net.cap[a] := by
    rw [costOf, ← sum_add_distrib]
    apply sum_nonneg
    intro a _
    obtain ⟨hlo, hhi⟩ := h a
    have habs := neg_abs_le cost[a]
    have := abs_nonneg cost[a]
    nlinarith
  unfold slack
  omega

end Network

namespace Problem

variable (p : Problem n m Int)

/-- The flow stays within the capacities and meets the supply of every node. -/
structure Feasible (flow : Table Int m) : Prop where
  within : p.Within flow
  balanced : ∀ v : Fin n, p.outflow flow v = p.supply[v]

instance (flow : Table Int m) : Decidable (p.Feasible flow) :=
  decidable_of_iff (p.Within flow ∧ ∀ v : Fin n, p.outflow flow v = p.supply[v])
    ⟨fun ⟨hwithin, hbalanced⟩ => ⟨hwithin, hbalanced⟩,
      fun ⟨hwithin, hbalanced⟩ => ⟨hwithin, hbalanced⟩⟩

/-- What a flow costs. -/
def totalCost (flow : Table Int m) : Int := costOf p.cost flow

/-- No feasible flow costs less than this one. -/
structure Optimal (flow : Table Int m) : Prop where
  feasible : p.Feasible flow
  least : ∀ other, p.Feasible other → p.totalCost flow ≤ p.totalCost other

/-- The potentials leave no arc that could carry more with a negative reduced cost,
and none that carries something with a positive one. -/
def Certifies (flow : Table Int m) (potential : Table Int n) : Prop :=
  ∀ a : Fin m, (flow[a] < p.cap[a] →
      0 ≤ p.cost[a] + potential[p.tail[a]] - potential[p.head[a]]) ∧
    (0 < flow[a] → p.cost[a] + potential[p.tail[a]] - potential[p.head[a]] ≤ 0)

instance (flow : Table Int m) (potential : Table Int n) :
    Decidable (p.Certifies flow potential) :=
  inferInstanceAs (Decidable (∀ _ : Fin m, _ ∧ _))

/-- The cost of a flow is its reduced cost less what the potentials are worth at the nodes. -/
theorem totalCost_eq (flow : Table Int m) (potential : Table Int n) :
    p.totalCost flow =
      ∑ a : Fin m, (p.cost[a] + potential[p.tail[a]] - potential[p.head[a]]) * flow[a] -
        ∑ v : Fin n, potential[v] * p.outflow flow v := by
  rw [p.sum_mul_outflow (fun v : Fin n => potential[v]), totalCost, costOf, ← sum_sub_distrib]
  apply sum_congr rfl
  intro a _
  ring

/-- Potentials prove that a feasible flow is optimal. -/
theorem Certifies.optimal {p : Problem n m Int} {flow : Table Int m} {potential : Table Int n}
    (hc : p.Certifies flow potential) (hf : p.Feasible flow) : p.Optimal flow := by
  refine ⟨hf, fun other ho => ?_⟩
  have hbalance : ∑ v : Fin n, potential[v] * p.outflow flow v =
      ∑ v : Fin n, potential[v] * p.outflow other v := by
    apply sum_congr rfl
    intro v _
    rw [hf.balanced, ho.balanced]
  rw [p.totalCost_eq flow potential, p.totalCost_eq other potential, hbalance]
  refine sub_le_sub_right (sum_le_sum fun a _ => ?_) _
  obtain ⟨hlo, hhi⟩ := ho.within a
  obtain ⟨hraise, hlower⟩ := hc a
  rcases lt_trichotomy flow[a] other[a] with h | h | h
  · have := hraise (lt_of_lt_of_le h hhi)
    nlinarith
  · rw [h]
  · have := hlower (lt_of_le_of_lt hlo h)
    nlinarith

/-- No flow is feasible if some flow cannot carry the supplies of a set of nodes out
of it although no residual arc leaves the set. -/
theorem not_feasible_of_closed {flow : Table Int m} {nodes : Finset (Fin n)}
    (hclosed : p.Closed flow nodes)
    (hless : ∑ v ∈ nodes, p.outflow flow v < ∑ v ∈ nodes, p.supply[v]) :
    ¬ ∃ other, p.Feasible other := by
  rintro ⟨other, ho⟩
  have hle := p.sum_outflow_le_of_closed hclosed ho.within
  rw [sum_congr rfl fun v _ => ho.balanced v] at hle
  omega

end Problem

end NetworkFlow
