import NetworkFlow.Proofs.BellmanFord.Rounds
import NetworkFlow.Proofs.Exact
import NetworkFlow.Proofs.Iteration
import NetworkFlow.Residual

/-!
# Cancelling negative cycles

A cycle that Bellman-Ford finds passes no node twice, whatever the costs. So it takes as
much as the least of its rooms; the flow stays within the capacities and every node
keeps its balance. If costs are exact, the flow gets cheaper by that, and the search
ends; then the distances are potentials that certify the flow.

## Main results

* `cancelOne_within`, `cancelOne_next`: what cancelling one cycle does.
* `exists_cancelNegativeCycles`, `cancelNegativeCycles_spec`: the pass ends, and with what.
* `certifies_potentials`: the potentials certify a flow without negative cycles.
-/

namespace NetworkFlow.Residual

open BellmanFord
open scoped ExactCosts

variable {n m : Nat}

section Flow

variable {α : Type} [Scalar α] {p : Problem n m α} {flow : Table Int m}
  {cycle : List (ResidualArc m)} {s s' : Cancelling m}

omit [Scalar α] in
theorem mem_openArcs {r : ResidualArc m} : r ∈ openArcs p flow ↔ 0 < p.room flow r := by
  simp [openArcs, ResidualArc.mem_all]

theorem leads_of_isWalk {arcs walk : List (ResidualArc m)} {u v : Fin n}
    (h : IsWalk (costed p) arcs u v walk) : p.Leads walk u v := by
  induction walk generalizing u with
  | nil =>
      obtain rfl : u = v := h
      exact p.leads_nil u
  | cons r walk ih =>
      obtain ⟨-, rfl, hwalk⟩ := h
      exact (ih hwalk).cons

omit [Scalar α] in
/-- The bottleneck is no more than any arc of the cycle has room for. -/
theorem bottleneck_le {r : ResidualArc m} (hr : r ∈ cycle) :
    bottleneck p flow cycle ≤ p.room flow r := by
  cases cycle with
  | nil => simp at hr
  | cons r₀ rest =>
      obtain ⟨hfirst, hrest, -⟩ := p.foldl_min_room flow rest (p.room flow r₀)
      rcases List.mem_cons.mp hr with rfl | hr
      · exact hfirst
      · exact hrest r hr

/-- What is taken for a negative cycle is a cycle of open arcs without repetition. -/
theorem relaxation_closed (h : relaxation p flow = .negativeCycle cycle) :
    (∃ u, p.Leads cycle u u) ∧ cycle.Nodup ∧ ∀ r ∈ cycle, 0 < p.room flow r := by
  obtain ⟨⟨u, hwalk⟩, hnodup⟩ := run_closed h
  exact ⟨⟨u, leads_of_isWalk hwalk⟩, hnodup.of_map, fun r hr => mem_openArcs.mp (hwalk.mem r hr)⟩

/-- What a step does: it ends the pass if there are distances, or if what is taken for a negative
cycle has no room, and otherwise sends along the cycle as much as it takes. -/
theorem cancelOne_cases (p : Problem n m α) (s : Cancelling m) :
    (∃ dist, relaxation p s.flow = .converged dist ∧ cancelOne p s = .done s) ∨
      ∃ cycle, relaxation p s.flow = .negativeCycle cycle ∧
        (bottleneck p s.flow cycle ≤ 0 ∧ cancelOne p s = .done s ∨
          0 < bottleneck p s.flow cycle ∧ cancelOne p s = .next
            { flow := sendAll s.flow cycle (bottleneck p s.flow cycle)
              cancelled := s.cancelled + 1 }) := by
  unfold cancelOne
  cases relaxation p s.flow with
  | converged dist => exact Or.inl ⟨dist, rfl, rfl⟩
  | negativeCycle cycle =>
      refine Or.inr ⟨cycle, rfl, ?_⟩
      rcases le_or_gt (bottleneck p s.flow cycle) 0 with hstop | hpos
      · exact Or.inl ⟨hstop, if_pos hstop⟩
      · exact Or.inr ⟨hpos, if_neg (not_le.mpr hpos)⟩

/-- Cancelling what is taken for a negative cycle keeps the flow within the capacities and every
balance. -/
theorem cancelOne_within (hwithin : p.Within s.flow) (h : cancelOne p s = .next s') :
    p.Within s'.flow ∧ ∀ v, p.outflow s'.flow v = p.outflow s.flow v := by
  rcases cancelOne_cases p s with ⟨-, -, heq⟩ | ⟨cycle, hcycle, ⟨-, heq⟩ | ⟨hpos, heq⟩⟩ <;>
    cases heq.symm.trans h
  obtain ⟨⟨u, hleads⟩, hnodup, -⟩ := relaxation_closed hcycle
  exact ⟨hwithin.sendAll hnodup hpos.le fun r hr => bottleneck_le hr,
    Network.outflow_sendAll_cycle hleads s.flow _⟩

theorem cancelOne_ends (h : cancelOne p s = .done s') : s' = s := by
  rcases cancelOne_cases p s with ⟨-, -, heq⟩ | ⟨cycle, -, ⟨-, heq⟩ | ⟨-, heq⟩⟩ <;>
    cases heq.symm.trans h <;> rfl

/-- The pass leaves a flow within the capacities with the same balances. -/
theorem cancelNegativeCycles_within {fuel : Nat} (hwithin : p.Within flow)
    (h : cancelNegativeCycles p fuel flow = .ok s) :
    p.Within s.flow ∧ ∀ v, p.outflow s.flow v = p.outflow flow v := by
  refine iterate_invariant
    (P := fun s : Cancelling m => p.Within s.flow ∧ ∀ v, p.outflow s.flow v = p.outflow flow v)
    (Q := fun s : Cancelling m => p.Within s.flow ∧ ∀ v, p.outflow s.flow v = p.outflow flow v)
    ?_ ?_ ⟨hwithin, fun _ => rfl⟩ h
  · rintro s₁ s₂ ⟨h₁, hbalance⟩ hstep
    obtain ⟨h₂, hbalance'⟩ := cancelOne_within h₁ (Scalar.checked_eq_ok.mp hstep).2
    exact ⟨h₂, fun v => (hbalance' v).trans (hbalance v)⟩
  · rintro s₁ s₂ h₁ hstep
    rw [cancelOne_ends (Scalar.checked_eq_ok.mp hstep).2]
    exact h₁

end Flow

variable [inst : ExactCosts] {p : Problem n m Int} {flow : Table Int m}
  {cycle : List (ResidualArc m)} {s s' : Cancelling m}

theorem costSum_eq (walk : List (ResidualArc m)) :
    costSum (costed p) walk = priceOf p.cost walk :=
  congrArg List.sum (List.map_congr_left fun r _ => residualCost_eq p.cost r)

/-- The bottleneck of a negative cycle is positive. -/
theorem bottleneck_pos (h : NegativeCycle (costed p) (openArcs p flow) cycle) :
    0 < bottleneck p flow cycle := by
  obtain ⟨u, hwalk⟩ := h.closed
  have hopen : ∀ r ∈ cycle, 0 < p.room flow r := fun r hr => mem_openArcs.mp (hwalk.mem r hr)
  cases cycle with
  | nil => exact absurd rfl h.ne_nil
  | cons r rest =>
      obtain ⟨-, -, hgreatest⟩ := p.foldl_min_room flow rest (p.room flow r)
      exact hgreatest 1 (hopen r (by simp)) fun r' hr' => hopen r' (by simp [hr'])

/-- Cancelling a negative cycle makes the flow cheaper. -/
theorem cancel_cheaper (h : NegativeCycle (costed p) (openArcs p flow) cycle) :
    p.totalCost (sendAll flow cycle (bottleneck p flow cycle)) < p.totalCost flow := by
  have hpos := bottleneck_pos h
  have hnegative := h.negative
  rw [costSum_eq] at hnegative
  rw [Problem.totalCost, costOf_sendAll, Problem.totalCost]
  have := mul_neg_of_pos_of_neg hpos hnegative
  omega

variable (htolerance : p.tolerance = 0)
include htolerance

theorem relaxation_negativeCycle (h : relaxation p flow = .negativeCycle cycle) :
    NegativeCycle (costed p) (openArcs p flow) cycle := by
  unfold relaxation at h
  rw [htolerance] at h
  exact run_negativeCycle h

/-- Every cycle that is found is cancelled. -/
theorem cancelOne_eq (hcycle : relaxation p s.flow = .negativeCycle cycle) :
    cancelOne p s = .next
      { flow := sendAll s.flow cycle (bottleneck p s.flow cycle), cancelled := s.cancelled + 1 } := by
  have hpos := bottleneck_pos (relaxation_negativeCycle htolerance hcycle)
  rcases cancelOne_cases p s with ⟨_, heq, -⟩ | ⟨_, heq, ⟨hstop, -⟩ | ⟨-, hnext⟩⟩ <;>
    cases hcycle.symm.trans heq
  · omega
  · exact hnext

/-- One step cancels one cycle. -/
theorem cancelOne_next (h : cancelOne p s = .next s') :
    p.totalCost s'.flow < p.totalCost s.flow ∧ s'.cancelled = s.cancelled + 1 := by
  rcases cancelOne_cases p s with ⟨-, -, heq⟩ | ⟨cycle, hcycle, ⟨-, heq⟩ | ⟨-, heq⟩⟩ <;>
    cases heq.symm.trans h
  exact ⟨cancel_cheaper (relaxation_negativeCycle htolerance hcycle), rfl⟩

/-- The pass ends only when there are distances. -/
theorem cancelOne_done (h : cancelOne p s = .done s') :
    ∃ dist, relaxation p s.flow = .converged dist := by
  cases hrelax : relaxation p s.flow with
  | converged dist => exact ⟨dist, rfl⟩
  | negativeCycle cycle => cases (cancelOne_eq htolerance hrelax).symm.trans h

theorem exists_cancelNegativeCycles (hwithin : p.Within flow) :
    ∃ fuel s, cancelNegativeCycles p fuel flow = .ok s := by
  refine exists_iterate (P := fun s : Cancelling m => p.Within s.flow)
    (measure fun s : Cancelling m => p.slack p.cost s.flow).wf (fun _ _ => ⟨_, checked_exact _ _⟩) ?_
    hwithin
  intro s s' hs hstep
  have hstep := (Scalar.checked_eq_ok.mp hstep).2
  obtain ⟨hs', -⟩ := cancelOne_within hs hstep
  exact ⟨hs', hs'.slack_lt (cancelOne_next htolerance hstep).1⟩

/-- The pass leaves a flow without negative cycles. -/
theorem cancelNegativeCycles_spec {fuel : Nat} (h : cancelNegativeCycles p fuel flow = .ok s) :
    ∃ dist, relaxation p s.flow = .converged dist := by
  refine iterate_invariant (P := fun _ : Cancelling m => True)
    (Q := fun s : Cancelling m => ∃ dist, relaxation p s.flow = .converged dist)
    (fun _ _ _ _ => trivial) ?_ trivial h
  intro s₁ s₂ _ hstep
  rw [cancelOne_ends (Scalar.checked_eq_ok.mp hstep).2]
  exact cancelOne_done htolerance (Scalar.checked_eq_ok.mp hstep).2

/-- Distances over the open residual arcs certify a flow. -/
theorem certifies_potentials {dist : Table Int n}
    (h : relaxation p flow = .converged dist) : p.Certifies flow (potentials p flow) := by
  have hpotentials : potentials p flow = dist := by
    unfold potentials
    rw [h]
  rw [hpotentials, certifies_iff]
  intro r hroom
  unfold relaxation at h
  rw [htolerance] at h
  have hle := (run_converged h).1 r (mem_openArcs.mpr hroom)
  simp only [costed, residualCost_eq] at hle
  unfold Network.reduced
  omega

end NetworkFlow.Residual
