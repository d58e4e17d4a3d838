import NetworkFlow.Proofs.BellmanFord.Distances
import NetworkFlow.Proofs.CostScaling.Amounts

/-!
# What cancelling negative cycles does

A cycle of negative cost passes no node twice, so it does not use both residual arcs of an arc: one
right after the other they would be all of it, and cost nothing. Each arc of the cycle therefore
has room for the bottleneck when its turn comes, and the flow stays within the capacities all the
way around.

The bottleneck is positive, as open arcs have room, so the pass never stops at a cycle; and when no
cycle is left, the distances over the open arcs are potentials.

## Main results

* `nodup_arcs`: a negative cycle uses no arc in both directions.
* `cancelable`: what sending along a cycle that is found does.
* `cancels_all`: what the pass keeps, that it ends, and what it leaves.
-/

namespace NetworkFlow.BellmanFord

variable {n : Nat} {ι α : Type} {g : CostedArcs n ι α} {arcs walk : List ι} {u v : Fin n}

/-- A walk that is not empty enters its last node. -/
theorem IsWalk.mem_heads (h : IsWalk g arcs u v walk) (hne : walk ≠ []) :
    v ∈ walk.map g.head := by
  induction walk generalizing u with
  | nil => exact absurd rfl hne
  | cons k walk ih =>
      cases walk with
      | nil =>
          obtain rfl : g.head k = v := h.2.2
          simp
      | cons k' walk => exact List.mem_cons_of_mem _ (ih h.2.2 (by simp))

/-- A walk that never enters its last node does not begin. -/
theorem IsWalk.eq_nil (h : IsWalk g arcs u v walk) (hv : v ∉ walk.map g.head) : walk = [] := by
  by_contra hne
  exact hv (h.mem_heads hne)

end NetworkFlow.BellmanFord

namespace NetworkFlow.Residual

open BellmanFord
open scoped ExactCosts

variable {n m : Nat} {p : Problem n m Int} {flow : Table Int m} {cycle : List (ResidualArc m)}

section Cycles

variable [ExactCosts]

/-- A negative cycle does not go along an arc and later back. -/
private theorem not_there_and_back (h : NegativeCycle (costed p) (openArcs p flow) cycle)
    {before between after : List (ResidualArc m)} {r : ResidualArc m}
    (hsplit : cycle = before ++ r :: (between ++ r.reverse :: after)) : False := by
  obtain ⟨u, hwalk⟩ := h.closed
  have hnodup := h.nodup
  have hnegative := h.negative
  subst hsplit
  obtain ⟨v, hbefore, -, rfl, hrest⟩ := isWalk_append_iff.mp hwalk
  obtain ⟨w, hbetween, -, rfl, hafter⟩ := isWalk_append_iff.mp hrest
  have hturn : (costed p).tail r.reverse = (costed p).head r := p.source_reverse r
  have hback : (costed p).head r.reverse = (costed p).tail r := p.target_reverse r
  rw [hturn] at hbetween
  rw [hback] at hafter
  simp only [List.map_append, List.map_cons, List.nodup_middle, List.nodup_cons, List.mem_append,
    not_or] at hnodup
  obtain ⟨⟨-, hbetween', -⟩, hnodup⟩ := hnodup
  -- what lies between the two is closed, and so is what is left of the cycle
  obtain rfl := hbetween.eq_nil hbetween'
  rw [List.map_nil, List.nil_append, hback, List.nodup_middle, List.nodup_cons] at hnodup
  have houter : after ++ before = [] := by
    refine (hafter.append hbefore).eq_nil fun hmem => hnodup.1 ?_
    rw [← List.map_append]
    exact (List.perm_append_comm.map _).mem_iff.mp hmem
  obtain ⟨rfl, rfl⟩ := List.append_eq_nil_iff.mp houter
  rw [costSum_eq] at hnegative
  simp [priceOf, ResidualArc.price_reverse] at hnegative

/-- A negative cycle uses no arc in both directions. -/
theorem nodup_arcs (h : NegativeCycle (costed p) (openArcs p flow) cycle) :
    (cycle.map (·.arc)).Nodup := by
  refine (List.nodup_map_iff_inj_on h.nodup.of_map).mpr fun r hr s hs harc => ?_
  rcases ResidualArc.eq_or_eq_reverse harc with rfl | rfl
  · rfl
  · obtain ⟨before, after, rfl⟩ := List.append_of_mem hr
    rcases List.mem_append.mp hs with hs | hs
    · obtain ⟨first, between, rfl⟩ := List.append_of_mem hs
      have hsplit : first ++ r.reverse :: between ++ r :: after =
          first ++ r.reverse :: (between ++ r.reverse.reverse :: after) := by
        rw [ResidualArc.reverse_reverse, List.append_assoc, List.cons_append]
      exact (not_there_and_back h hsplit).elim
    · rcases List.mem_cons.mp hs with hsame | hs
      · exact hsame.symm
      · obtain ⟨between, rest, rfl⟩ := List.append_of_mem hs
        exact (not_there_and_back h rfl).elim

/-- What sending along a cycle of residual arcs as much as it takes is meant to do. -/
structure Cancelable (p : Problem n m Int) (flow : Table Int m) (cycle : List (ResidualArc m)) :
    Prop where
  negative : NegativeCycle (costed p) (openArcs p flow) cycle
  nodup_arcs : (cycle.map (·.arc)).Nodup
  bottleneck_pos : 0 < bottleneck p flow cycle
  /-- Each residual arc has room when its turn comes. -/
  room : ∀ done r rest, cycle = done ++ r :: rest →
    bottleneck p flow cycle ≤ p.room (sendAll flow done (bottleneck p flow cycle)) r
  /-- The flow stays within the capacities all the way around. -/
  within : ∀ done rest, cycle = done ++ rest →
    p.Within (sendAll flow done (bottleneck p flow cycle))
  balanced : ∀ v, p.outflow (sendAll flow cycle (bottleneck p flow cycle)) v = p.outflow flow v
  cheaper : p.totalCost (sendAll flow cycle (bottleneck p flow cycle)) < p.totalCost flow

theorem cancelable (hflow : p.Within flow)
    (h : NegativeCycle (costed p) (openArcs p flow) cycle) : Cancelable p flow cycle where
  negative := h
  nodup_arcs := nodup_arcs h
  bottleneck_pos := bottleneck_pos h
  room := by
    rintro done r rest rfl
    have hnodup := nodup_arcs h
    rw [List.map_append, List.map_cons, List.nodup_middle, List.nodup_cons, List.mem_append,
      not_or] at hnodup
    rw [p.room_sendAll_of_notMem hnodup.1.1]
    exact bottleneck_le (by simp)
  within _ _ := within_sendAll_part hflow h.nodup.of_map (bottleneck_pos h).le
  balanced := by
    obtain ⟨u, hwalk⟩ := h.closed
    exact Network.outflow_sendAll_cycle (leads_of_isWalk hwalk) flow _
  cheaper := cancel_cheaper h

end Cycles

section Pass

variable [ExactCosts] (htolerance : p.tolerance = 0)
include htolerance

/-- In exact arithmetic without a tolerance, from any flow within the capacities:

* at every step of the pass the flow is within the capacities and has the balances that it began
  with, and a cycle that is found is cancelled: its bottleneck is positive, each of its residual
  arcs has room for it in turn, and the flow gets cheaper;
* the pass ends;
* it leaves no closed walk of negative cost over the open residual arcs, and the potentials are the
  distances over them, which leave none with a negative reduced cost. -/
theorem cancels_all (hflow : p.Within flow) :
    (∀ s, Reached p flow s → p.Within s.flow ∧
      (∀ v, p.outflow s.flow v = p.outflow flow v) ∧
      ∀ cycle, relaxation p s.flow = .negativeCycle cycle → Cancelable p s.flow cycle ∧
        cancelOne p s = .next
          { flow := sendAll s.flow cycle (bottleneck p s.flow cycle)
            cancelled := s.cancelled + 1 }) ∧
    (∃ fuel s, cancelNegativeCycles p fuel flow = .ok s) ∧
    ∀ fuel s, cancelNegativeCycles p fuel flow = .ok s → Reached p flow s ∧
      (∀ u walk, IsWalk (costed p) (openArcs p s.flow) u u walk → 0 ≤ costSum (costed p) walk) ∧
      relaxation p s.flow = .converged (potentials p s.flow) ∧
      ∀ r, 0 < p.room s.flow r → 0 ≤ p.reduced p.cost (potentials p s.flow) r := by
  refine ⟨fun s hs => ⟨hs.within hflow, hs.balanced hflow, fun cycle hcycle => ⟨?_, ?_⟩⟩,
    exists_cancelNegativeCycles htolerance hflow, fun fuel s hpass => ?_⟩
  · exact cancelable (hs.within hflow) (relaxation_negativeCycle htolerance hcycle)
  · exact cancelOne_eq htolerance hcycle
  · obtain ⟨dist, hdist⟩ := cancelNegativeCycles_spec htolerance hpass
    refine ⟨reached_cancelNegativeCycles hpass, fun u walk hwalk => ?_, ?_, ?_⟩
    · rw [relaxation, htolerance] at hdist
      exact costSum_nonneg_of_converged hdist hwalk
    · rw [hdist, potentials, hdist]
    · exact (certifies_iff p s.flow _).mp (certifies_potentials htolerance hdist)

end Pass

/-- If both units are sent over the dearer of the two arcs of `parallelProblem`, one cycle is
cancelled, for the one unit that the cheaper arc can take. -/
theorem cancels_all_parallelProblem :
    letI := ExactCosts.ofWidth .bits128
    let p := Configuration.parallelProblem.exact
    p.tolerance = 0 ∧ p.Within ⟨#v[0, 2]⟩ ∧
      cancelNegativeCycles p 2 ⟨#v[0, 2]⟩ = .ok { flow := ⟨#v[1, 1]⟩, cancelled := 1 } ∧
      ∀ r, 0 < p.room ⟨#v[1, 1]⟩ r → 0 ≤ p.reduced p.cost (potentials p ⟨#v[1, 1]⟩) r := by
  have hpass :
      letI := ExactCosts.ofWidth .bits128
      cancelNegativeCycles Configuration.parallelProblem.exact 2 ⟨#v[0, 2]⟩ =
        .ok { flow := ⟨#v[1, 1]⟩, cancelled := 1 } := by
    with_unfolding_all rfl
  have hwithin : Configuration.parallelProblem.exact.Within ⟨#v[0, 2]⟩ := by
    with_unfolding_all decide
  let _ := ExactCosts.ofWidth .bits128
  have hall := cancels_all (p := Configuration.parallelProblem.exact) rfl hwithin
  exact ⟨rfl, hwithin, hpass, (hall.2.2 2 _ hpass).2.2.2⟩

end NetworkFlow.Residual
