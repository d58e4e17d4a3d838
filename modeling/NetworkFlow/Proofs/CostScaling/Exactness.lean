import NetworkFlow.Proofs.BellmanFord.Distances
import NetworkFlow.Proofs.CostScaling.Room

/-!
# The last refinement is exact

The epsilon of a phase is the largest scaled cost, divided by alpha as often as there were phases,
but one at least (`epsilonAt`). So if some arc has a cost, the phases are refinements with the
epsilons down to the first that is one.

A cycle passes a node only once. So if no residual arc with room has a reduced cost below minus
one, the scaled cost of a cycle of them is at least minus the number of nodes. It is a multiple of
one more than that number, and so it is not negative: the last pass has nothing to cancel. If no
arc has a cost there is no phase, and no cycle is negative either.

## Main results

* `refinedDown_of_phases`: the phases are refinements down to an epsilon of one.
* `not_negativeCycle_of_optimal`: optimal up to epsilon is optimal if the scale is large enough.
* `costScaling_exact`: the last pass has nothing to cancel.
-/

namespace NetworkFlow.CostScaling

open BellmanFord Residual
open scoped ExactCosts

variable {n m fuel alpha : Nat}

section Schedule

/-- The epsilon of a phase, the first one being that after a single division. -/
def epsilonAt (alpha : Nat) (largest : Int) (k : Nat) : Int :=
  max 1 (largest / ((max alpha 2 : Nat) : Int) ^ k)

/-- Refinements with these epsilons, one after the other. -/
def refinements [Scalar Int] (p : Scaled n m Int) (fuel : Nat) (epsilons : List Int)
    (s : State n m Int) : Option (State n m Int) :=
  epsilons.foldlM (fun s epsilon => (refine p fuel epsilon s).toOption.join) s

/-- The state before the first phase. -/
def unrefined (n : Nat) (flow : Table Int m) : State n m Int where
  flow := flow
  potential := .const n 0
  excess := .const n 0
  current := .const n 0
  active := []

/-- A number of phases are refinements whose epsilons come down to one, which is that of the last
of them alone. -/
structure RefinedDown [Scalar Int] (p : Scaled n m Int) (fuel alpha : Nat) (largest : Int)
    (flow : Table Int m) (count : Nat) (s : State n m Int) : Prop where
  pos : 0 < count
  refined : refinements p fuel ((List.range count).map fun k => epsilonAt alpha largest (k + 1))
    (unrefined n flow) = some s
  coarse : ∀ k, 0 < k → k < count → 1 < epsilonAt alpha largest k
  finest : epsilonAt alpha largest count = 1

variable [ExactCosts] {p : Scaled n m Int} {flow : Table Int m} {largest : Int}
  {s : Phase n m Int}

/-- That epsilon is cut off at one on the way changes nothing. -/
theorem nextEpsilon_epsilonAt (hlargest : 0 ≤ largest) (k : Nat) :
    nextEpsilon alpha (epsilonAt alpha largest k) = epsilonAt alpha largest (k + 1) := by
  have hbase : (2 : Int) ≤ (max alpha 2 : Nat) := by omega
  rw [nextEpsilon_eq]
  unfold epsilonAt
  generalize ((max alpha 2 : Nat) : Int) = base at hbase ⊢
  have hquotient : 0 ≤ largest / base ^ k := Int.ediv_nonneg hlargest (by positivity)
  rw [pow_succ, ← Int.ediv_ediv_of_nonneg (by positivity), Int.tdiv_eq_ediv_of_nonneg (by omega)]
  generalize largest / base ^ k = quotient at hquotient ⊢
  -- a quotient of zero is cut off at one, but one divided again is zero as well
  rcases hquotient.eq_or_lt with rfl | hpos
  · have hone : (1 : Int) / base = 0 := Int.ediv_eq_zero_of_lt (by omega) (by omega)
    simp [hone]
  · rw [max_eq_right (show 1 ≤ quotient by omega)]

/-- So far the phases have been refinements with epsilons above one. -/
structure RefinedSoFar (p : Scaled n m Int) (fuel alpha : Nat) (largest : Int) (flow : Table Int m)
    (s : Phase n m Int) : Prop where
  epsilon_eq : s.epsilon = epsilonAt alpha largest s.count
  refined : refinements p fuel ((List.range s.count).map fun k => epsilonAt alpha largest (k + 1))
    (unrefined n flow) = some s.state
  coarse : ∀ k, 0 < k → k ≤ s.count → 1 < epsilonAt alpha largest k

/-- One more phase is one more refinement. -/
theorem RefinedSoFar.refine {s' : Phase n m Int} (h : RefinedSoFar p fuel alpha largest flow s)
    (hlargest : 0 ≤ largest) (hrefine : refine p fuel s'.epsilon s.state = .ok (some s'.state))
    (hepsilon : s'.epsilon = nextEpsilon alpha s.epsilon) (hcount : s'.count = s.count + 1) :
    s'.epsilon = epsilonAt alpha largest s'.count ∧
      refinements p fuel ((List.range s'.count).map fun k => epsilonAt alpha largest (k + 1))
        (unrefined n flow) = some s'.state := by
  rw [h.epsilon_eq, nextEpsilon_epsilonAt hlargest] at hepsilon
  rw [hcount]
  refine ⟨hepsilon, ?_⟩
  unfold refinements
  rw [List.range_succ, List.map_append, List.foldlM_append]
  refine Option.bind_eq_some_iff.mpr ⟨_, h.refined, ?_⟩
  simp [← hepsilon, hrefine, Except.toOption]

/-- The phases are refinements down to an epsilon of one. -/
theorem refinedDown_of_phases (hlargest : 0 < largest) {last : Phase n m Int}
    (h : phases p fuel alpha largest flow = .ok (some last)) :
    RefinedDown p fuel alpha largest flow last.count last.state := by
  unfold phases at h
  rw [finest_eq] at h
  refine iterate_invariant (P := RefinedSoFar p fuel alpha largest flow)
    (Q := fun o => ∀ last, o = some last →
      RefinedDown p fuel alpha largest flow last.count last.state) ?_ ?_ ?_ h last rfl
  · intro s s' hs hstep
    rcases phaseStep_cases hstep with
      ⟨-, ⟨⟩⟩ | ⟨s₁, hrefine, hepsilon, hcount, ⟨⟨⟩, hcoarse⟩ | ⟨⟨⟩, -⟩⟩
    rw [scalar_le_iff, not_le] at hcoarse
    obtain ⟨heq, hrefined⟩ := hs.refine hlargest.le hrefine hepsilon hcount
    refine ⟨heq, hrefined, fun k hpos hk => ?_⟩
    rcases hk.lt_or_eq with hk | rfl
    · exact hs.coarse k hpos (by omega)
    · omega
  · rintro s o hs hstep last rfl
    rcases phaseStep_cases hstep with
      ⟨-, ⟨⟩⟩ | ⟨s₁, hrefine, hepsilon, hcount, ⟨⟨⟩, -⟩ | ⟨⟨⟩, hfinest⟩⟩
    rw [scalar_le_iff] at hfinest
    obtain ⟨heq, hrefined⟩ := hs.refine hlargest.le hrefine hepsilon hcount
    have hone : 1 ≤ epsilonAt alpha largest last.count := le_max_left _ _
    exact ⟨by omega, hrefined, fun k hpos hk => hs.coarse k hpos (by omega), by omega⟩
  · refine ⟨?_, ?_, fun k hpos hk => by simp only at hk; omega⟩
    · simp only [epsilonAt, pow_zero, Int.ediv_one]
      omega
    · simp [refinements, unrefined, scalar_zero_eq]

end Schedule

section Scaling

variable [ExactCosts] {p : Problem n m Int} {scaledCost : Table Int m} {flow : Table Int m}
  {cycle : List (ResidualArc m)} {potential : Table Int n} {scale epsilon : Int}

omit [ExactCosts] in
theorem priceOf_scaled {cost : Table Int m} (hscaled : ∀ a : Fin m, scaledCost[a] = cost[a] * scale)
    (path : List (ResidualArc m)) : priceOf scaledCost path = priceOf cost path * scale := by
  unfold priceOf
  rw [← List.sum_map_mul_right]
  refine congrArg List.sum (List.map_congr_left fun r _ => ?_)
  unfold ResidualArc.price
  rw [hscaled]
  split
  · rw [neg_mul]
  · rfl

/-- If no residual arc with room has a reduced cost below `-epsilon` and the costs are scaled by
more than epsilon for each node, no cycle is negative. -/
theorem not_negativeCycle_of_optimal (hscaled : ∀ a : Fin m, scaledCost[a] = p.cost[a] * scale)
    (hepsilon : 0 ≤ epsilon) (hscale : n * epsilon < scale)
    (hoptimal : ∀ r, 0 < p.room flow r → -epsilon ≤ p.reduced scaledCost potential r) :
    ¬ NegativeCycle (costed p) (openArcs p flow) cycle := by
  intro h
  obtain ⟨u, hwalk⟩ := h.closed
  have hlength : (cycle.length : Int) ≤ n := by
    have := h.nodup.length_le_card
    simp only [List.length_map, Fintype.card_fin] at this
    exact_mod_cast this
  -- around the cycle the potentials cancel out
  have hsum : (cycle.map (p.reduced scaledCost potential)).sum = priceOf p.cost cycle * scale := by
    rw [(leads_of_isWalk hwalk).sum_reduced, priceOf_scaled hscaled]
    ring
  have hlow : -(cycle.length * epsilon) ≤ (cycle.map (p.reduced scaledCost potential)).sum := by
    have hcard := List.card_nsmul_le_sum (cycle.map (p.reduced scaledCost potential)) (-epsilon) (by
      intro x hx
      obtain ⟨r, hr, rfl⟩ := List.mem_map.mp hx
      exact hoptimal r (mem_openArcs.mp (hwalk.mem r hr)))
    simpa using hcard
  have hnegative : priceOf p.cost cycle ≤ -1 := by
    have := h.negative
    rw [costSum_eq] at this
    omega
  have hnodes : cycle.length * epsilon ≤ n * epsilon := mul_le_mul_of_nonneg_right hlength hepsilon
  have hpos : 0 ≤ scale := (mul_nonneg (Int.natCast_nonneg n) hepsilon).trans hscale.le
  have hmultiple : priceOf p.cost cycle * scale ≤ -1 * scale :=
    mul_le_mul_of_nonneg_right hnegative hpos
  omega

/-- Without a negative cycle the last pass ends at once. -/
theorem cancelNegativeCycles_of_not_negativeCycle (htolerance : p.tolerance = 0)
    (h : ∀ cycle, ¬ NegativeCycle (costed p) (openArcs p flow) cycle) :
    (∀ u walk, IsWalk (costed p) (openArcs p flow) u u walk → 0 ≤ costSum (costed p) walk) ∧
      ∀ fuel, cancelNegativeCycles p (fuel + 1) flow = .ok { flow, cancelled := 0 } := by
  cases hrelax : relaxation p flow with
  | negativeCycle cycle => exact absurd (relaxation_negativeCycle htolerance hrelax) (h cycle)
  | converged dist =>
      constructor
      · rw [relaxation, htolerance] at hrelax
        exact fun u walk => costSum_nonneg_of_converged hrelax
      · intro fuel
        simp [cancelNegativeCycles, iterate, cancelOne, hrelax]

theorem scaledCosts_eq (h : scaledCosts p = .ok scaledCost) (a : Fin m) :
    scaledCost[a] = p.cost[a] * (n + 1) := by
  have := eq_mul_of_mul? (mul?_of_scaledCosts h a)
  rw [this, ofCount_eq]
  push_cast
  rfl

/-- The largest scaled cost is positive if some arc has a cost. -/
theorem maxMagnitude_pos_iff (h : scaledCosts p = .ok scaledCost) :
    0 < Scalar.maxMagnitude 0 scaledCost.toList ↔ ∃ a : Fin m, p.cost[a] ≠ 0 := by
  constructor
  · intro hpos
    by_contra hnone
    push Not at hnone
    have hle : Scalar.maxMagnitude 0 scaledCost.toList ≤ 0 := by
      refine maxMagnitude_le le_rfl fun x hx => ?_
      obtain ⟨a, rfl⟩ := mem_toList.mp hx
      rw [scaledCosts_eq h, hnone, zero_mul, abs_zero]
    omega
  · rintro ⟨a, ha⟩
    have hle := magnitude_le_maxMagnitude 0 (mem_toList.mpr ⟨a, rfl⟩ : scaledCost[a] ∈ scaledCost.toList)
    have hne : scaledCost[a] ≠ 0 := by
      rw [scaledCosts_eq h]
      exact mul_ne_zero ha (by omega)
    exact (abs_pos.mpr hne).trans_le hle

/-- There are phases if some arc has a cost. -/
theorem scaledFlow_eq (hscaled : scaledCosts p = .ok scaledCost) (fuel alpha : Nat)
    (flow : Table Int m) : scaledFlow fuel p alpha flow =
      if 0 < Scalar.maxMagnitude 0 scaledCost.toList then do
        match ← Logged.ofRun (phases (scaled p scaledCost) fuel alpha
          (Scalar.maxMagnitude 0 scaledCost.toList) flow) with
        | none => return none
        | some last =>
            Logged.report (.phasesDone last.count)
            return some last.state.flow
      else return some flow := by
  have hlift : (liftM (Except.ok scaledCost : Except Error (Table Int m)) : Logged (Table Int m)) =
      pure scaledCost := rfl
  have hguard : (liftM (Except.ok () : Except Interruption Unit) : Logged Unit) = pure () := rfl
  unfold scaledFlow
  simp only [hscaled, hlift, inRange_exact, hguard, pure_bind, scalar_lt_iff, scalar_zero_eq]
  split
  · refine bind_congr fun o => ?_
    cases o <;> rfl
  · rfl

/-- Without costs the flow stays as it is. -/
theorem scaledFlow_of_zero (hscaled : scaledCosts p = .ok scaledCost)
    (hzero : ∀ a : Fin m, p.cost[a] = 0) (fuel alpha : Nat) (flow : Table Int m) :
    scaledFlow fuel p alpha flow = ⟨[], .ok (some flow)⟩ := by
  rw [scaledFlow_eq hscaled, if_neg]
  · rfl
  · rw [maxMagnitude_pos_iff hscaled]
    rintro ⟨a, ha⟩
    exact ha (hzero a)

/-- With costs, the phases are refinements down to an epsilon of one, and leave a flow that is
optimal up to one in scaled costs. -/
theorem scaledFlow_refined (hflow : p.Feasible flow) (hscaled : scaledCosts p = .ok scaledCost)
    (hcost : ∃ a : Fin m, p.cost[a] ≠ 0) {o : Option (Table Int m)}
    (h : (scaledFlow fuel p alpha flow).outcome = .ok o) :
    ∃ count s, o = some s.flow ∧
      RefinedDown (scaled p scaledCost) fuel alpha (Scalar.maxMagnitude 0 scaledCost.toList) flow
        count s ∧
      (∀ r, 0 < p.room s.flow r → -1 ≤ p.reduced scaledCost s.potential r) ∧
      (scaledFlow fuel p alpha flow).events = [.phasesDone count] := by
  have hlargest := (maxMagnitude_pos_iff hscaled).mpr hcost
  rw [scaledFlow_eq hscaled, if_pos hlargest] at h ⊢
  obtain ⟨result, hphases, h⟩ := Logged.outcome_bind_eq_ok.mp h
  rw [Logged.outcome_ofRun_eq_ok] at hphases
  obtain ⟨last, rfl, -, hoptimal⟩ :=
    phases_spec (p := scaled p scaledCost) rfl hflow hlargest hphases
  cases h
  refine ⟨last.count, last.state, rfl, refinedDown_of_phases hlargest hphases, hoptimal, ?_⟩
  rw [hphases]
  rfl

/-- The phases end if the scaled costs are in range. -/
theorem exists_scaledFlow (hflow : p.Feasible flow) (hscaled : scaledCosts p = .ok scaledCost)
    (alpha : Nat) :
    ∃ fuel o, ∀ fuel', fuel ≤ fuel' → (scaledFlow fuel' p alpha flow).outcome = .ok o := by
  have hflowEnds : Logged.Ends fun fuel => scaledFlow fuel p alpha flow := ends_scaledFlow hflow
  obtain ⟨fuel, r, hreturns, hends⟩ := hflowEnds
  cases r with
  | ok o => exact ⟨fuel, o, hends⟩
  | error fault =>
      cases fault with
      | interrupted why => exact absurd rfl (hreturns why)
      | refused cause =>
          have hnone : ∀ cause, scaledCosts p = .error cause → False := by simp [hscaled]
          exact (refusesOnly_scaledFlow hnone cause (hends fuel le_rfl)).elim

/-- The phases leave no negative cycle; without costs there is none anyway. -/
theorem not_negativeCycle_of_scaledFlow (hflow : p.Feasible flow)
    (hscaled : scaledCosts p = .ok scaledCost) {flow' : Table Int m}
    (h : (scaledFlow fuel p alpha flow).outcome = .ok (some flow')) :
    ¬ NegativeCycle (costed p) (openArcs p flow') cycle := by
  by_cases hcost : ∃ a : Fin m, p.cost[a] ≠ 0
  · obtain ⟨-, s, heq, -, hoptimal, -⟩ := scaledFlow_refined hflow hscaled hcost h
    obtain rfl := Option.some.inj heq
    exact not_negativeCycle_of_optimal (scaledCosts_eq hscaled) zero_le_one (by omega) hoptimal
  · push Not at hcost
    intro hcycle
    have hfree : priceOf p.cost cycle = 0 := by
      simp [priceOf, ResidualArc.price, hcost]
    have hnegative := hcycle.negative
    rw [costSum_eq, hfree] at hnegative
    exact lt_irrefl 0 hnegative

end Scaling

end NetworkFlow.CostScaling

namespace NetworkFlow.Configuration

open BellmanFord CostScaling Residual
open scoped ExactCosts

variable {w cw : Width} {c : Configuration w (Word cw)}
  {p : Problem c.nodes c.arcs (Cost.Wide (Word cw))}

/-- On every problem that `prepare` returns, for every alpha and from any feasible flow, as long as
the scaled costs are in range:

* the costs are scaled by one more than the number of nodes, and the phases of cost scaling end;
* if some arc has a cost they are refinements, the last one with an epsilon of one; otherwise there
  are none, and the flow stays as it is;
* the residual arcs with room then have no closed walk of negative cost, and the last pass cancels
  no cycle. -/
theorem costScaling_exact [ExactCosts] (hp : c.prepare.outcome = .ok (some p)) (alpha : Nat)
    {flow : Table Int c.arcs} (hflow : p.exact.Feasible flow) {scaledCost : Table Int c.arcs}
    (hscaled : scaledCosts p.exact = .ok scaledCost) :
    (∀ a : Fin c.arcs, scaledCost[a] = p.exact.cost[a] * (c.nodes + 1)) ∧
    (∃ fuel o, ∀ fuel', fuel ≤ fuel' → (scaledFlow fuel' p.exact alpha flow).outcome = .ok o) ∧
    ∀ fuel o, (scaledFlow fuel p.exact alpha flow).outcome = .ok o → ∃ flow', o = some flow' ∧
      ((∃ a : Fin c.arcs, p.exact.cost[a] ≠ 0) → ∃ count s,
        RefinedDown (scaled p.exact scaledCost) fuel alpha
          (Scalar.maxMagnitude 0 scaledCost.toList) flow count s ∧ s.flow = flow' ∧
        (scaledFlow fuel p.exact alpha flow).events = [.phasesDone count]) ∧
      ((∀ a : Fin c.arcs, p.exact.cost[a] = 0) →
        flow' = flow ∧ (scaledFlow fuel p.exact alpha flow).events = []) ∧
      (∀ u walk, IsWalk (Residual.costed p.exact) (openArcs p.exact flow') u u walk →
        0 ≤ costSum (Residual.costed p.exact) walk) ∧
      ∀ fuel', cancelNegativeCycles p.exact (fuel' + 1) flow' =
        .ok { flow := flow', cancelled := 0 } := by
  have htolerance := (c.prepared_of_prepare hp).tolerance_eq
  refine ⟨scaledCosts_eq hscaled, exists_scaledFlow hflow hscaled alpha, fun fuel o h => ?_⟩
  obtain ⟨flow', rfl, -⟩ := scaledFlow_spec hflow h
  refine ⟨flow', rfl, fun hcost => ?_, fun hzero => ?_,
    cancelNegativeCycles_of_not_negativeCycle htolerance fun _ =>
      not_negativeCycle_of_scaledFlow hflow hscaled h⟩
  · obtain ⟨count, s, heq, hrefined, -, hevents⟩ := scaledFlow_refined hflow hscaled hcost h
    exact ⟨count, s, hrefined, (Option.some.inj heq).symm, hevents⟩
  · rw [scaledFlow_of_zero hscaled hzero] at h ⊢
    cases h
    exact ⟨rfl, rfl⟩

/-- From the flow that sends both units of `parallelArcs` over the dearer arc, three phases lead to
the optimal one. -/
theorem costScaling_exact_parallelArcs :
    letI := ExactCosts.ofWidth .bits128
    let p := parallelProblem.exact
    parallelArcs.prepare.outcome = .ok (some parallelProblem) ∧ p.Feasible ⟨#v[0, 2]⟩ ∧
      scaledCosts p = .ok ⟨#v[3, 9]⟩ ∧
      scaledFlow 20 p 0 ⟨#v[0, 2]⟩ = ⟨[.phasesDone 3], .ok (some ⟨#v[1, 1]⟩)⟩ ∧
      (∃ s, RefinedDown (scaled p ⟨#v[3, 9]⟩) 20 0 (Scalar.maxMagnitude 0 [3, 9]) ⟨#v[0, 2]⟩ 3 s ∧
        s.flow = ⟨#v[1, 1]⟩) ∧
      cancelNegativeCycles p 1 ⟨#v[1, 1]⟩ = .ok { flow := ⟨#v[1, 1]⟩, cancelled := 0 } := by
  have hscaled :
      letI := ExactCosts.ofWidth .bits128
      scaledCosts parallelProblem.exact = .ok ⟨#v[3, 9]⟩ := by
    with_unfolding_all rfl
  have hrun :
      letI := ExactCosts.ofWidth .bits128
      scaledFlow 20 parallelProblem.exact 0 ⟨#v[0, 2]⟩ =
        ⟨[.phasesDone 3], .ok (some ⟨#v[1, 1]⟩)⟩ := by
    with_unfolding_all rfl
  have hfeasible : parallelProblem.exact.Feasible ⟨#v[0, 2]⟩ := by with_unfolding_all decide
  have hcost : ∃ a : Fin 2, parallelProblem.exact.cost[a] ≠ 0 := by with_unfolding_all decide
  let _ := ExactCosts.ofWidth .bits128
  have houtcome := congrArg Logged.outcome hrun
  obtain ⟨-, -, hall⟩ := costScaling_exact prepare_parallelArcs 0 hfeasible hscaled
  obtain ⟨flow', heq, hrefined, -, -, hclean⟩ := hall 20 _ houtcome
  obtain rfl := Option.some.inj heq
  obtain ⟨count, s, hdown, hflow, hevents⟩ := hrefined hcost
  cases hevents.symm.trans (congrArg Logged.events hrun)
  exact ⟨prepare_parallelArcs, hfeasible, hscaled, hrun, ⟨s, hdown, hflow⟩, hclean 0⟩

/-- An arc that costs nothing, for one unit. -/
def freeArc : Configuration .bits64 (Word .bits64) where
  graph := { id := ⟨0⟩, nodeCount := 2, ends := #[⟨0, 1⟩], below := below_loneArc }
  upper := some { graph := ⟨0⟩, values := #[.clamp 1], fill := default }
  cost := some { graph := ⟨0⟩, values := #[.clamp 0], fill := default }
  supply := .single ⟨0, Nat.two_pos⟩ ⟨1, Nat.one_lt_two⟩ (.clamp 1)

/-- The finite problem of `freeArc`. -/
def freeProblem : Problem 2 1 (Word .bits128) :=
  freeArc.toProblem ⟨#v[1, -1]⟩ 0

/-- The flow of `freeArc` is feasible, and is not refined at all, whatever alpha is. -/
theorem freeArc_unrefined :
    letI := ExactCosts.ofWidth .bits128
    let p := freeProblem.exact
    freeArc.prepare.outcome = .ok (some freeProblem) ∧ p.Feasible ⟨#v[1]⟩ ∧
      scaledCosts p = .ok ⟨#v[0]⟩ ∧
      ∀ fuel alpha, (scaledFlow fuel p alpha ⟨#v[1]⟩).outcome = .ok (some ⟨#v[1]⟩) ∧
        ∀ count, Event.phasesDone count ∉ (scaledFlow fuel p alpha ⟨#v[1]⟩).events := by
  have hprepare : freeArc.prepare.outcome = .ok (some freeProblem) := by with_unfolding_all rfl
  have hfeasible : freeProblem.exact.Feasible ⟨#v[1]⟩ := by with_unfolding_all decide
  have hscaled :
      letI := ExactCosts.ofWidth .bits128
      scaledCosts freeProblem.exact = .ok ⟨#v[0]⟩ := by
    with_unfolding_all rfl
  have hzero : ∀ a : Fin 1, freeProblem.exact.cost[a] = 0 := by with_unfolding_all decide
  let _ := ExactCosts.ofWidth .bits128
  refine ⟨hprepare, hfeasible, hscaled, fun fuel alpha => ?_⟩
  rw [scaledFlow_of_zero hscaled hzero]
  exact ⟨rfl, fun count => List.not_mem_nil⟩

end NetworkFlow.Configuration
