import NetworkFlow.Proofs.CostScaling.Amounts

/-!
# How far potentials fall in cost scaling

A node with an excess reaches one with a deficit along residual arcs on which the flow has to
change to become the one that the phase began with. Such an arc has room, and its reverse had room
when the phase began, so what the potentials lose in a phase changes along it by no more than the
epsilons of the last phase and of this one together. The node with a deficit has lost nothing. As
the epsilons are halved at least, no potential ever falls by more than three times the largest
epsilon for every node.

## Main results

* `Refining.fall_le`: how far a node with an excess has fallen in a phase.
* `Reached.stands`, `Reached.low`: how low the potentials are, wherever the phases stand.
-/

namespace NetworkFlow.CostScaling

open Finset Relation
open scoped ExactCosts

variable {n m alpha : Nat} {p : Scaled n m Int} {largest coarse epsilon : Int}
  {flow : Table Int m} {first s s' : State n m Int} {stage : Stage n m Int} {u : Fin n}

/-- The potentials have fallen by no more than three times what epsilon has, for every node. -/
def Low (largest epsilon : Int) (s : State n m Int) : Prop :=
  ∀ v : Fin n, -(3 * (n * (largest - epsilon))) ≤ s.potential[v] ∧ s.potential[v] ≤ 0

theorem Low.mono (h : Low largest coarse s) (hle : epsilon ≤ coarse) : Low largest epsilon s := by
  intro v
  have hmul : (n : Int) * (largest - coarse) ≤ n * (largest - epsilon) :=
    mul_le_mul_of_nonneg_left (by omega) (by omega)
  have := h v
  omega

theorem Low.congr (h : Low largest epsilon s) (heq : s'.potential = s.potential) :
    Low largest epsilon s' := by
  intro v
  rw [heq]
  exact h v

/-- What a phase leaves: a feasible flow that is optimal up to its epsilon. -/
structure Halted (p : Scaled n m Int) (largest epsilon : Int) (s : State n m Int) : Prop
    extends Settled p s where
  optimal : ∀ r, 0 < p.room s.flow r → -epsilon ≤ p.reduced p.scaledCost s.potential r
  low : Low largest epsilon s

/-- A phase begins after one whose epsilon was twice as large at least. -/
structure Begins (p : Scaled n m Int) (largest coarse epsilon : Int) (first : State n m Int) : Prop
    extends Halted p largest coarse first where
  one_le : 1 ≤ epsilon
  halves : 2 * epsilon ≤ coarse

theorem Begins.feasible (h : Begins p largest coarse epsilon first) : p.Feasible first.flow :=
  Problem.feasible_amounts.mp h.toSettled.feasible

section Fall

variable (hfirst : Begins p largest coarse epsilon first)
include hfirst

/-- Along a residual arc toward the flow that the phase began with, what the potentials have lost
changes by no more than both epsilons together. -/
theorem Refining.fall_le_of_toward (h : Refining p epsilon first.potential s) {v w : Fin n}
    (hstep : p.Toward s.flow first.flow v w) : s.potential[w] - first.potential[w] ≤
      s.potential[v] - first.potential[v] + (coarse + epsilon) := by
  obtain ⟨r, hless, rfl, rfl⟩ := hstep
  have hroom := hfirst.within.room_nonneg r
  have hopen := h.optimal r (by omega)
  have hback : 0 < p.room first.flow r.reverse := by
    have hsum := p.room_add_reverse s.flow r
    have hsum' := p.room_add_reverse first.flow r
    have := h.within.room_nonneg r.reverse
    omega
  have hopen' := hfirst.optimal r.reverse hback
  rw [p.reduced_reverse] at hopen'
  unfold Network.reduced at hopen hopen'
  omega

/-- How far a node with an excess has fallen in a phase. -/
theorem Refining.fall_le (h : Refining p epsilon first.potential s) (hu : 0 < s.excess[u]) :
    first.potential[u] - ((n : Int) - 1) * (coarse + epsilon) ≤ s.potential[u] := by
  obtain ⟨v, hv, hreach⟩ := h.toward_deficit hfirst.feasible hu
  have hone := hfirst.one_le
  have hhalves := hfirst.halves
  have hle := le_add_of_reaches (f := fun v : Fin n => s.potential[v] - first.potential[v])
    (c := coarse + epsilon) (by omega) (fun v w => h.fall_le_of_toward hfirst) hreach
  have heq := h.deficit v hv
  omega

/-- The nodes that sink in a phase stay high enough. -/
theorem Low.sinks (h : Low largest epsilon s) (hsinks : Sinks s s')
    (h' : Refining p epsilon first.potential s') : Low largest epsilon s' := by
  intro v
  by_cases hv : s'.potential[v] = s.potential[v]
  · rw [hv]
    exact h v
  · refine ⟨?_, (hsinks.le v).trans (h v).2⟩
    have hfall := h'.fall_le hfirst (hsinks.excess_pos v hv)
    have hlow := (hfirst.low v).1
    have hone := hfirst.one_le
    have hhalves := hfirst.halves
    have hnodes : ((n : Int) - 1) * (coarse + epsilon) ≤ n * (3 * (coarse - epsilon)) := by
      apply mul_le_mul _ _ _ _ <;> omega
    have hsplit : 3 * ((n : Int) * (largest - epsilon)) =
        3 * (n * (largest - coarse)) + n * (3 * (coarse - epsilon)) := by ring
    omega

end Fall

/-- What is known of a state, depending on where the phases stand. -/
def Stands [Scalar Int] (p : Scaled n m Int) (largest : Int) : Stage n m Int → State n m Int → Prop
  | .settled epsilon, s => 0 ≤ epsilon ∧ Halted p largest epsilon s
  | .filling epsilon rest, s => ∃ first coarse, Begins p largest coarse epsilon first ∧
      s.potential = first.potential ∧
      rest.foldl (saturate p) s = (ResidualArc.all m).foldl (saturate p) first
  | .waiting epsilon, s => ∃ first coarse, Begins p largest coarse epsilon first ∧
      Queued p epsilon first.potential s ∧ Low largest epsilon s
  | .discharging epsilon u, s => ∃ first coarse, Begins p largest coarse epsilon first ∧
      Refining p epsilon first.potential s ∧ WaitsBut (· = u) s ∧ Low largest epsilon s

section Reach

variable [inst : ExactCosts]

theorem potential_saturate (s : State n m Int) (r : ResidualArc m) :
    (saturate p s r).potential = s.potential := by
  unfold saturate
  split <;> rfl

omit inst in
/-- The state before the first phase. -/
theorem halted_start (hflow : p.Feasible flow) (hcost : ∀ a : Fin m, |p.scaledCost[a]| ≤ largest) :
    Halted p largest largest
      { flow, potential := .const n 0, excess := .const n 0, current := .const n 0, active := [] } where
  toSettled := settled_start (Problem.feasible_amounts.mpr hflow) _
  optimal r _ := by
    have hprice := abs_le.mp (abs_price_le hcost r)
    unfold Network.reduced
    rw [Table.getElem_const, Table.getElem_const]
    omega
  low v := by
    rw [Table.getElem_const]
    omega

/-- Epsilon is halved at least as long as it is not one. -/
theorem nextEpsilon_halves (alpha : Nat) (h : 2 ≤ epsilon) :
    1 ≤ nextEpsilon alpha epsilon ∧ 2 * nextEpsilon alpha epsilon ≤ epsilon := by
  refine ⟨one_le_nextEpsilon alpha epsilon, ?_⟩
  rw [nextEpsilon_eq, Int.tdiv_eq_ediv_of_nonneg (by omega)]
  have hmul := Int.ediv_mul_le epsilon (b := ((max alpha 2 : Nat) : Int)) (by omega)
  have hquotient : 0 ≤ epsilon / ((max alpha 2 : Nat) : Int) :=
    Int.ediv_nonneg (by omega) (by omega)
  have htwo : epsilon / ((max alpha 2 : Nat) : Int) * 2 ≤
      epsilon / ((max alpha 2 : Nat) : Int) * ((max alpha 2 : Nat) : Int) :=
    mul_le_mul_of_nonneg_left (by omega) hquotient
  omega

variable (hrows : p.rows = p.toNetwork.rows) (hflow : p.Feasible flow)
  (hcost : ∀ a : Fin m, |p.scaledCost[a]| ≤ largest) (hlargest : 2 ≤ largest)

include hrows hflow hcost hlargest

/-- What is known of the states that the phases pass. -/
theorem Reached.stands (h : Reached p alpha largest flow stage s) : Stands p largest stage s := by
  induction h with
  | start =>
      rw [scalar_zero_eq]
      exact ⟨by omega, halted_start hflow hcost⟩
  | @refine epsilon s _ hcoarse ih =>
      have htwo : 2 ≤ epsilon := by
        rw [scalar_le_iff, finest_eq] at hcoarse
        omega
      obtain ⟨hone, hhalves⟩ := nextEpsilon_halves alpha htwo
      exact ⟨s, epsilon, ⟨ih.2, hone, hhalves⟩, rfl, rfl⟩
  | saturate _ ih =>
      obtain ⟨first, coarse, hfirst, hpotential, hfold⟩ := ih
      exact ⟨first, coarse, hfirst, (potential_saturate _ _).trans hpotential, hfold⟩
  | filled _ ih =>
      obtain ⟨first, coarse, hfirst, hpotential, hfold⟩ := ih
      have hone := hfirst.one_le
      have hhalves := hfirst.halves
      have hqueued := queued_filled hone hfirst.toSound hfirst.waits
      rw [← hfold] at hqueued
      exact ⟨first, coarse, hfirst, hqueued, (hfirst.low.mono (by omega)).congr hpotential⟩
  | take _ hactive ih =>
      obtain ⟨first, coarse, hfirst, hqueued, hlow⟩ := ih
      obtain ⟨hrefining, hwaits⟩ := hqueued.pop hactive
      exact ⟨first, coarse, hfirst, hrefining, hwaits, hlow⟩
  | @step epsilon u s s' _ hstep ih =>
      obtain ⟨first, coarse, hfirst, hrefining, hwaits, hlow⟩ := ih
      rcases dischargeStep_spec hrows hrefining hfirst.one_le ⟨_, hfirst.feasible⟩ hwaits with
        ⟨s₁, heq, h', hwaits', hsinks, -⟩ | ⟨heq, -⟩ <;> rw [heq] at hstep <;> cases hstep
      exact ⟨first, coarse, hfirst, h', hwaits', hlow.sinks hfirst hsinks h'⟩
  | finish _ hstep ih =>
      obtain ⟨first, coarse, hfirst, hrefining, hwaits, hlow⟩ := ih
      obtain ⟨rfl, hle⟩ := dischargeStep_done hstep
      exact ⟨first, coarse, hfirst, ⟨hrefining, WaitsBut.discharged hwaits hle⟩, hlow⟩
  | settle _ hactive ih =>
      obtain ⟨first, coarse, hfirst, ⟨hrefining, hwaits⟩, hlow⟩ := ih
      have hsupply : ∑ v : Fin n, p.supply[v] = 0 := by
        rw [← p.sum_outflow flow]
        exact sum_congr rfl fun v _ => (hflow.balanced v).symm
      have hone := hfirst.one_le
      exact ⟨by omega, ⟨hrefining.toSound, hrefining.excess_eq_zero hsupply hwaits hactive⟩,
        hrefining.optimal, hlow⟩

/-- Wherever the phases stand, no potential is above zero or lower than three times the largest
epsilon for every node. -/
theorem Reached.low (h : Reached p alpha largest flow stage s) : Low largest 0 s := by
  have hstands := h.stands hrows hflow hcost hlargest
  cases stage with
  | settled epsilon => exact hstands.2.low.mono hstands.1
  | filling epsilon rest =>
      obtain ⟨first, coarse, hfirst, hpotential, -⟩ := hstands
      have hone := hfirst.one_le
      have hhalves := hfirst.halves
      exact (hfirst.low.mono (by omega)).congr hpotential
  | waiting epsilon =>
      obtain ⟨first, coarse, hfirst, -, hlow⟩ := hstands
      have hone := hfirst.one_le
      exact hlow.mono (by omega)
  | discharging epsilon u =>
      obtain ⟨first, coarse, hfirst, -, -, hlow⟩ := hstands
      have hone := hfirst.one_le
      exact hlow.mono (by omega)

end Reach

end NetworkFlow.CostScaling
