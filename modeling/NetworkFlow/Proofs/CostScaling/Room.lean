import Mathlib.Algebra.Order.Ring.Abs
import NetworkFlow.Proofs.CostScaling.Fall
import NetworkFlow.Proofs.CostScaling.Words
import NetworkFlow.Proofs.MaxFlow.Range

/-!
# Room for the potentials of cost scaling

The states that the phases pass on words are states that they pass on integers, and there it is known
how low the potentials are: three times the largest scaled cost for every node. If that and one more
scaled cost fit the width, then so does everything that the phases compute from costs. What the last
pass computes fits as long as the residual arcs together, as often as there are nodes, cost no more
than does.

## Main results

* `Residual.relaxationOperations_fit`: what a look for a negative cycle takes fits.
* `Reached.exact`: the states that the phases pass on words are passed on integers.
* `phases_ne_overflow`: the phases do not overflow.
* `solve_ne_overflow`, `solve_refuses_nothing`: what a run on words does not end with.
-/

namespace NetworkFlow

open Finset
open scoped ExactCosts

variable {n m : Nat} {w : Width}

namespace Residual

variable {p : Problem n m (Word w)} {flow : Table Int m} {top : Int}

/-- What all open arcs cost together. -/
theorem expense_openArcs_le (htop : ∀ a : Fin m, |p.cost[a].val| ≤ top) (hnonneg : 0 ≤ top)
    (hfits : top < w.half) :
    BellmanFord.expense (costed p).exact (openArcs p flow) ≤ 2 * m * top := by
  have hlength : (openArcs p flow).length ≤ 2 * m := by
    refine (List.length_filter_le _ _).trans ?_
    simp [ResidualArc.all]
    omega
  have hall : ∀ x ∈ (openArcs p flow).map fun k => |(costed p).exact.cost k|, x ≤ top := by
    intro x hx
    obtain ⟨r, -, rfl⟩ := List.mem_map.mp hx
    show |(Problem.residualCost p.cost r).val| ≤ top
    rw [val_residualCost (priceOperations_fit htop hfits)]
    exact abs_price_map_le htop
  have hsum : BellmanFord.expense (costed p).exact (openArcs p flow) ≤
      (openArcs p flow).length * top := by
    simpa [BellmanFord.expense] using List.sum_le_card_nsmul _ _ hall
  exact hsum.trans (mul_le_mul_of_nonneg_right (by omega) hnonneg)

/-- What a look for a negative cycle takes fits. -/
theorem relaxationOperations_fit (htop : ∀ a : Fin m, |p.cost[a].val| ≤ top) (hnonneg : 0 ≤ top)
    (hfits : n * (2 * m * top) + top < w.half) (htolerance : p.tolerance.val = 0) :
    ∀ op ∈ relaxationOperations p flow, op.Fits := by
  let _ := ExactCosts.ofWidth w
  have hpos : 0 ≤ (n : Int) * (2 * m * top) := by positivity
  have hexpense : (n : Int) * BellmanFord.expense (costed p).exact (openArcs p flow) < w.half := by
    have hone : BellmanFord.expense (costed p).exact (openArcs p flow) ≤ 2 * m * top :=
      expense_openArcs_le htop hnonneg (by omega)
    have := mul_le_mul_of_nonneg_left hone (show (0 : Int) ≤ n by omega)
    omega
  refine List.forall_mem_append.mpr
    ⟨fun op hop => ?_, BellmanFord.runOperations_fit htolerance hexpense⟩
  obtain ⟨r, -, hop⟩ := List.mem_flatMap.mp hop
  exact priceOperations_fit htop (by omega) op hop

/-- Cancelling cycles does not overflow. -/
theorem cancelNegativeCycles_ne_overflow (htop : ∀ a : Fin m, |p.cost[a].val| ≤ top)
    (hnonneg : 0 ≤ top) (hfits : n * (2 * m * top) + top < w.half)
    (htolerance : p.tolerance.val = 0) (fuel : Nat) :
    cancelNegativeCycles p fuel flow ≠ .error .overflow :=
  iterate_ne_overflow (P := fun _ => True)
    (fun s _ => by
      have hlook : ∀ op ∈ relaxationOperations p s.flow, op.Fits :=
        relaxationOperations_fit htop hnonneg hfits htolerance
      exact Scalar.checked_ne_overflow (by simpa using hlook))
    (fun _ _ _ _ => trivial) trivial

end Residual

namespace CostScaling

/-- Where the phases stand, with epsilon read as an integer. -/
def Stage.exact : Stage n m (Word w) → Stage n m Int
  | .settled epsilon => .settled epsilon.val
  | .filling epsilon rest => .filling epsilon.val rest
  | .waiting epsilon => .waiting epsilon.val
  | .discharging epsilon u => .discharging epsilon.val u

section Step

variable {p : Scaled n m (Word w)} {s : State n m (Word w)} {epsilon : Word w} {top low : Int}
  {alpha : Nat}

/-- What epsilon is divided to fits. -/
theorem fits_quotient (alpha : Nat) (h : 0 ≤ epsilon.val) :
    CostOperation.Fits (.div epsilon (Scalar.ofCount (max alpha 2))) := by
  obtain ⟨hdivisor, -⟩ := val_divisor (w := w) alpha
  have hfits := epsilon.fits.2
  refine ⟨by omega, ?_⟩
  rw [Int.tdiv_eq_ediv_of_nonneg h]
  have hle := Int.ediv_le_self (Scalar.ofCount (max alpha 2) : Word w).val h
  have hnonneg := Int.ediv_nonneg h (show 0 ≤ (Scalar.ofCount (max alpha 2) : Word w).val by omega)
  exact ⟨by omega, by omega⟩

variable (htop : ∀ a : Fin m, |p.scaledCost[a].val| ≤ top)
  (hlow : ∀ v : Fin n, -low ≤ s.potential[v].val ∧ s.potential[v].val ≤ 0)
  (hfits : top + low < w.half)

include htop hlow hfits

theorem admissibleOperations_fit (r : ResidualArc m) :
    ∀ op ∈ admissibleOperations p s r, op.Fits := by
  unfold admissibleOperations
  split
  · exact Problem.reducedCostOperations_fit htop hlow hfits
  · simp

/-- What the residual arcs of a node allow its potential to be fits. -/
theorem highestOperations_fit (u : Fin n) : ∀ op ∈ highestOperations p s u, op.Fits := by
  intro op hop
  obtain ⟨r, -, hop⟩ := List.mem_flatMap.mp hop
  have htarget := hlow (p.target r)
  have hprice := abs_le.mp (abs_price_map_le (r := r) htop)
  have hturned : ∀ op ∈ Problem.priceOperations p.scaledCost r, op.Fits :=
    priceOperations_fit htop (by omega)
  have hsub : CostOperation.Fits
      (.sub s.potential[p.target r] (Problem.residualCost p.scaledCost r)) := by
    show w.Fits (s.potential[p.target r].val - (Problem.residualCost p.scaledCost r).val)
    rw [val_residualCost hturned]
    exact ⟨by omega, by omega⟩
  exact List.forall_mem_append.mpr ⟨hturned, List.forall_mem_singleton.mpr hsub⟩ op hop

end Step

section Reach

variable [ExactCosts] {p : Scaled n m (Word w)} {s s' : State n m (Word w)}
  {largest epsilon : Word w} {u : Fin n} {alpha fuel : Nat} {flow : Table Int m}
  {stage : Stage n m (Word w)}

variable (hrows : p.rows = p.toNetwork.rows) (hflow : p.exact.Feasible flow)
  (hcost : ∀ a : Fin m, |p.scaledCost[a].val| ≤ largest.val) (hlargest : 2 ≤ largest.val)
  (hfits : largest.val + 3 * (n * largest.val) < w.half)

omit [ExactCosts] in
include hlargest in
/-- Another phase follows only on an epsilon above one. -/
theorem two_le_of_coarse (h : epsilon = largest ∨ ¬ epsilon ≤ Scalar.finest largest) :
    2 ≤ epsilon.val := by
  rcases h with rfl | h
  · exact hlargest
  · have hnot : ¬ epsilon.val ≤ 1 := h
    omega

include hrows hflow hcost hlargest

/-- Where the phases stand on integers, the potentials are low by so much at most. -/
theorem low_of_reached {t : State n m Int} {stage : Stage n m Int}
    (h : Reached p.exact alpha largest.val flow stage t) (v : Fin n) :
    -(3 * (n * largest.val)) ≤ t.potential[v] ∧ t.potential[v] ≤ 0 := by
  have hcost' : ∀ a : Fin m, |p.exact.scaledCost[a]| ≤ largest.val := by
    intro a
    rw [show p.exact.scaledCost[a] = p.scaledCost[a].val from Table.getElem_map _ _ a]
    exact hcost a
  simpa using h.low hrows hflow hcost' hlargest v

theorem low_exact {stage : Stage n m Int}
    (h : Reached p.exact alpha largest.val flow stage s.exact) (v : Fin n) :
    -(3 * (n * largest.val)) ≤ s.potential[v].val ∧ s.potential[v].val ≤ 0 := by
  have hval : s.exact.potential[v] = s.potential[v].val := Table.getElem_map _ _ v
  rw [← hval]
  exact low_of_reached hrows hflow hcost hlargest h v

include hfits

/-- What lowering a node takes fits: on integers the potential that it gets is not too low. -/
theorem relabelOperations_fit
    (h : Reached p.exact alpha largest.val flow (.discharging epsilon.val u) s.exact)
    (hpos : 0 < s.excess[u]) (hplace : p.rows[u][s.current[u]]? = none) :
    ∀ op ∈ relabelOperations p epsilon s u, op.Fits := by
  have hoperations := highestOperations_fit hcost (low_exact hrows hflow hcost hlargest h) hfits u
  refine List.forall_mem_append.mpr ⟨hoperations, ?_⟩
  cases hbest : highest p s u with
  | none => simp
  | some best =>
      have hhighest := highest_exact hoperations
      have hplace' : p.exact.rows[u][s.exact.current[u]]? = none := hplace
      have hstep : dischargeStep p.exact epsilon.val u s.exact =
          .next (State.mk s.exact.flow (s.exact.potential.set u (best.val - epsilon.val))
            s.exact.excess (s.exact.current.set u 0) s.exact.active) := by
        unfold dischargeStep relabel
        rw [if_neg (show ¬ s.exact.excess[u] ≤ 0 from not_le.mpr hpos)]
        simp only [hplace', hhighest, hbest, Option.map_some, scalar_sub_eq]
      have hlow := low_of_reached hrows hflow hcost hlargest (h.step hstep) u
      simp only [Table.getElem_set_self] at hlow
      refine List.forall_mem_singleton.mpr ?_
      show w.Fits (best.val - epsilon.val)
      exact ⟨by omega, by omega⟩

/-- What a step of a discharge takes fits. -/
theorem dischargeOperations_fit
    (h : Reached p.exact alpha largest.val flow (.discharging epsilon.val u) s.exact) :
    ∀ op ∈ dischargeOperations p epsilon u s, op.Fits := by
  unfold dischargeOperations
  split
  · simp
  · rename_i hpos
    cases hplace : p.rows[u][s.current[u]]? with
    | some r =>
        exact admissibleOperations_fit hcost (low_exact hrows hflow hcost hlargest h) hfits r
    | none =>
        exact relabelOperations_fit hrows hflow hcost hlargest hfits h (not_le.mp hpos) hplace

/-- The states that the phases pass on words are passed on integers. -/
theorem Reached.exact (h : Reached p alpha largest flow stage s) :
    Reached p.exact alpha largest.val flow stage.exact s.exact := by
  induction h with
  | start =>
      have hstart : Reached p.exact alpha largest.val flow _ _ := .start
      rw [scalar_zero_eq] at hstart
      show Reached p.exact alpha largest.val flow (.settled largest.val) (State.exact _)
      unfold State.exact
      rwa [Table.map_const, val_zero]
  | @refine epsilon s _ hcoarse ih =>
      have htwo := two_le_of_coarse hlargest hcoarse
      show Reached p.exact alpha largest.val flow (.filling (nextEpsilon alpha epsilon).val _) _
      rw [← nextEpsilon_exact (fits_quotient alpha (by omega))]
      refine Reached.refine ih (Or.inr ?_)
      rw [scalar_le_iff, finest_eq]
      omega
  | @saturate epsilon r rest s _ ih =>
      rw [saturate_exact
        (admissibleOperations_fit hcost (low_exact hrows hflow hcost hlargest ih) hfits r)]
      exact Reached.saturate ih
  | filled _ ih => exact Reached.filled ih
  | take _ hactive ih => exact Reached.take ih hactive
  | step _ hstep ih =>
      refine Reached.step ih ?_
      rw [dischargeStep_exact (dischargeOperations_fit hrows hflow hcost hlargest hfits ih), hstep]
      rfl
  | finish _ hstep ih =>
      refine Reached.finish ih ?_
      rw [dischargeStep_exact (dischargeOperations_fit hrows hflow hcost hlargest hfits ih), hstep]
      rfl
  | settle _ hactive ih => exact Reached.settle ih hactive

theorem discharge_ne_overflow (h : Reached p alpha largest flow (.discharging epsilon u) s) :
    discharge p fuel epsilon s u ≠ .error .overflow := by
  refine iterate_ne_overflow (P := Reached p alpha largest flow (.discharging epsilon u)) ?_
    (fun _ _ h₁ hstep => h₁.step (Scalar.checked_eq_ok.mp hstep).2) h
  intro s₁ h₁
  apply Scalar.checked_ne_overflow
  simpa using dischargeOperations_fit hrows hflow hcost hlargest hfits
    (h₁.exact hrows hflow hcost hlargest hfits)

theorem queueStep_ne_overflow (h : Reached p alpha largest flow (.waiting epsilon) s) :
    queueStep p fuel epsilon s ≠ .error .overflow := by
  unfold queueStep
  cases hactive : s.active with
  | nil => exact nofun
  | cons u rest =>
      refine bind_ne_overflow
        (discharge_ne_overflow hrows hflow hcost hlargest hfits (h.take hactive)) fun o _ => ?_
      cases o <;> exact nofun

/-- What filling residual arcs takes fits. -/
theorem foldOperations_saturate_fit {rest : List (ResidualArc m)}
    (h : Reached p alpha largest flow (.filling epsilon rest) s) :
    ∀ op ∈ Scalar.foldOperations (saturate p) (admissibleOperations p) s rest, op.Fits := by
  refine foldOperations_fit
    (P := fun rest s => Reached p alpha largest flow (.filling epsilon rest) s) ?_
    (fun _ _ _ h₁ => h₁.saturate) h
  intro s₁ r _ h₁
  exact admissibleOperations_fit hcost
    (low_exact hrows hflow hcost hlargest (h₁.exact hrows hflow hcost hlargest hfits)) hfits r

/-- A phase does not overflow. -/
theorem refine_ne_overflow (h : Reached p alpha largest flow (.filling epsilon (ResidualArc.all m)) s) :
    refine p fuel epsilon s ≠ .error .overflow := by
  have hfill : ∀ op ∈ fillOperations p s, op.Fits :=
    foldOperations_saturate_fit hrows hflow hcost hlargest hfits h
  refine bind_ne_overflow (Scalar.checked_ne_overflow (by simpa using hfill)) fun _ _ => ?_
  exact iterate_ne_overflow (P := Reached p alpha largest flow (.waiting epsilon))
    (fun _ h₁ => queueStep_ne_overflow hrows hflow hcost hlargest hfits h₁)
    (fun _ _ h₁ hstep => reached_queueStep h₁ hstep) h.foldl_saturate

theorem phaseStep_ne_overflow {s : Phase n m (Word w)} (h : Pending p alpha largest flow s) :
    phaseStep p fuel alpha (Scalar.finest largest) s ≠ .error .overflow := by
  have htwo := two_le_of_coarse hlargest h.2
  have hquotient : CostOperation.Fits (.div s.epsilon (Scalar.ofCount (max alpha 2))) :=
    fits_quotient alpha (by omega)
  refine bind_ne_overflow (Scalar.checked_ne_overflow (by simpa using hquotient)) fun _ _ => ?_
  refine bind_ne_overflow
    (refine_ne_overflow hrows hflow hcost hlargest hfits (h.1.refine h.2)) fun o _ => ?_
  cases o with
  | none => exact nofun
  | some state =>
      dsimp only
      split <;> exact nofun

/-- The phases do not overflow. -/
theorem phases_ne_overflow : phases p fuel alpha largest flow ≠ .error .overflow :=
  iterate_ne_overflow (P := Pending p alpha largest flow)
    (fun _ h => phaseStep_ne_overflow hrows hflow hcost hlargest hfits h)
    (fun _ s' h hstep => (h.phaseStep hstep).1 s' rfl) pending_start

end Reach

section Scale

variable {p : Problem n m (Word w)} {scaledCost : Table (Word w) m} {top : Int}

section

variable (htop : ∀ a : Fin m, |p.cost[a].val| ≤ top) (hnonneg : 0 ≤ top)
  (hfits : ((n : Int) + 1) * (top + 1) < w.half)

include htop hnonneg hfits

/-- What a scaled cost is the product of. -/
theorem scaledCosts_factors (a : Fin m) : (Scalar.ofCount (n + 1) : Word w).val = n + 1 ∧
    |p.cost[a].val * ((n : Int) + 1)| ≤ (n + 1) * top ∧
      w.Fits (p.cost[a].val * ((n : Int) + 1)) := by
  have hn : (n : Int) + 1 ≤ (n + 1) * (top + 1) := le_mul_of_one_le_right (by omega) (by omega)
  have habs : |p.cost[a].val * ((n : Int) + 1)| ≤ (n + 1) * top := by
    rw [abs_mul, abs_of_nonneg (show (0 : Int) ≤ n + 1 by omega), mul_comm]
    exact mul_le_mul_of_nonneg_left (htop a) (by omega)
  refine ⟨val_ofCount_succ (by omega), habs, Width.fits_of_abs_lt ?_⟩
  rw [mul_add, mul_one] at hfits
  omega

/-- The scaled costs are not refused if they fit. -/
theorem scaledCosts_ne_error (cause : Error) : scaledCosts p ≠ .error cause := by
  intro h
  obtain ⟨-, a, hnone⟩ := exists_mul?_eq_none h
  obtain ⟨hcount, -, hmul⟩ := scaledCosts_factors htop hnonneg hfits a
  have hsome : Scalar.mul? p.cost[a] (Scalar.ofCount (n + 1)) = some ⟨_, hmul⟩ := by
    show Word.ofInt? (p.cost[a].val * (Scalar.ofCount (n + 1) : Word w).val) = _
    rw [hcount, Word.ofInt?_of_fits hmul]
  rw [hsome] at hnone
  cases hnone

/-- Each scaled cost is the product of the cost and one more than the number of nodes. -/
theorem val_scaledCosts (h : scaledCosts p = .ok scaledCost) (a : Fin m) :
    scaledCost[a].val = p.cost[a].val * (n + 1) ∧ |scaledCost[a].val| ≤ (n + 1) * top := by
  obtain ⟨hcount, habs, hmul⟩ := scaledCosts_factors htop hnonneg hfits a
  have hget : Word.ofInt? (p.cost[a].val * (Scalar.ofCount (n + 1) : Word w).val) =
      some scaledCost[a] := mul?_of_scaledCosts h a
  rw [hcount, Word.ofInt?_of_fits hmul] at hget
  rw [← Option.some.inj hget]
  exact ⟨rfl, habs⟩

/-- What it takes to find the largest scaled cost fits. -/
theorem magnitudeOperations_scaledCosts_fit (h : scaledCosts p = .ok scaledCost) :
    ∀ op ∈ Scalar.magnitudeOperations scaledCost.toList, op.Fits := by
  refine magnitudeOperations_fit (fun a => (val_scaledCosts htop hnonneg hfits h a).2) ?_
  rw [mul_add, mul_one] at hfits
  omega

end

/-- The largest scaled cost is the one of integers. -/
structure Scales (p : Problem n m (Word w)) (scaledCost : Table (Word w) m) (top : Int) : Prop where
  val_eq : ∀ a : Fin m, scaledCost[a].val = p.cost[a].val * (n + 1)
  largest_eq : ∀ [ExactCosts], (Scalar.maxMagnitude 0 scaledCost.toList).val =
    Scalar.maxMagnitude 0 (scaledCost.map (·.val)).toList
  le_largest : ∀ a : Fin m,
    |scaledCost[a].val| ≤ (Scalar.maxMagnitude 0 scaledCost.toList).val
  largest_le : (Scalar.maxMagnitude 0 scaledCost.toList).val ≤ (n + 1) * top

theorem scales_of_scaledCosts (htop : ∀ a : Fin m, |p.cost[a].val| ≤ top) (hnonneg : 0 ≤ top)
    (hfits : ((n : Int) + 1) * (top + 1) < w.half) (h : scaledCosts p = .ok scaledCost) :
    Scales p scaledCost top := by
  have hval := val_scaledCosts htop hnonneg hfits h
  have hscaled := fun a => (hval a).2
  have hsmall : ((n : Int) + 1) * top < w.half := by
    rw [mul_add, mul_one] at hfits
    omega
  have hlargest : ∀ [ExactCosts], (Scalar.maxMagnitude 0 scaledCost.toList).val =
      Scalar.maxMagnitude 0 (scaledCost.map (·.val)).toList :=
    val_maxMagnitude_table (magnitudeOperations_fit hscaled hsmall)
  exact ⟨fun a => (hval a).1, hlargest, abs_le_val_maxMagnitude hscaled hsmall,
    val_maxMagnitude_le hscaled hsmall (by positivity)⟩

/-- If some cost is not zero, the largest scaled one is two at least. -/
theorem Scales.two_le (h : Scales p scaledCost top)
    (hpos : 0 < (Scalar.maxMagnitude 0 scaledCost.toList).val) :
    2 ≤ (Scalar.maxMagnitude 0 scaledCost.toList).val := by
  let _ := ExactCosts.ofWidth w
  by_cases hzero : ∀ a : Fin m, p.cost[a].val = 0
  · have hle : Scalar.maxMagnitude 0 (scaledCost.map (·.val)).toList ≤ 0 := by
      refine maxMagnitude_le le_rfl fun x hx => ?_
      obtain ⟨a, rfl⟩ := mem_toList.mp hx
      rw [Table.getElem_map, h.val_eq, hzero, zero_mul, abs_zero]
    rw [h.largest_eq] at hpos
    exact absurd hpos (not_lt.mpr hle)
  · obtain ⟨a, ha⟩ := not_forall.mp hzero
    have hle := h.le_largest a
    rw [h.val_eq, abs_mul, abs_of_nonneg (show (0 : Int) ≤ n + 1 by omega)] at hle
    have hnode := (p.tail[a]).isLt
    have hmul : 1 * ((n : Int) + 1) ≤ |p.cost[a].val| * (n + 1) :=
      mul_le_mul_of_nonneg_right (Int.one_le_abs ha) (by omega)
    omega

end Scale

section Solve

variable {p : Problem n m (Word w)} {scaledCost : Table (Word w) m} {top : Int} {fuel alpha : Nat}
  {flow : Table Int m}

variable (htop : ∀ a : Fin m, |p.cost[a].val| ≤ top) (hnonneg : 0 ≤ top)

include htop hnonneg

/-- Cost scaling on words refuses nothing as long as the scaled costs fit the width and the demand
is an amount. -/
theorem solve_refuses_nothing (hp : p.exact.Prepared)
    (hfits : ((n : Int) + 1) * (top + 1) < w.half)
    (hdemand : ∑ v : Fin n, max p.supply[v] 0 ≤ Amount.largest) :
    (solve fuel p alpha).RefusesOnly fun _ => False :=
  refusesOnly_solve (p := p) (feasibleFlow_ne_refused (p := p.exact) hp hdemand fuel)
    fun cause h => scaledCosts_ne_error htop hnonneg hfits cause h

variable (hfits : (3 * (n : Int) + 1) * ((n + 1) * (top + 1)) < w.half)

include hfits

omit htop in
/-- The scaled costs fit. -/
theorem scaled_fits : ((n : Int) + 1) * (top + 1) < w.half := by
  have hpos : 0 ≤ ((n : Int) + 1) * (top + 1) := by positivity
  have hle : ((n : Int) + 1) * (top + 1) ≤ (3 * n + 1) * ((n + 1) * (top + 1)) :=
    le_mul_of_one_le_left hpos (by omega)
  omega

/-- What is known of the scaled costs is what the phases need. -/
theorem phases_ready (hscaled : scaledCosts p = .ok scaledCost)
    (hpos : 0 < Scalar.maxMagnitude 0 scaledCost.toList) :
    (∀ a : Fin m, |(scaled p scaledCost).scaledCost[a].val| ≤
        (Scalar.maxMagnitude 0 scaledCost.toList).val) ∧
      2 ≤ (Scalar.maxMagnitude 0 scaledCost.toList).val ∧
      (Scalar.maxMagnitude 0 scaledCost.toList).val +
        3 * (n * (Scalar.maxMagnitude 0 scaledCost.toList).val) < w.half := by
  have hscales := scales_of_scaledCosts htop hnonneg (scaled_fits hnonneg hfits) hscaled
  refine ⟨hscales.le_largest, hscales.two_le hpos, ?_⟩
  have hle : (Scalar.maxMagnitude 0 scaledCost.toList).val ≤ (n + 1) * (top + 1) := by
    have := hscales.largest_le
    rw [mul_add]
    omega
  have hmul := mul_le_mul_of_nonneg_left hle (show (0 : Int) ≤ 3 * n + 1 by omega)
  have hsplit : (3 * (n : Int) + 1) * (Scalar.maxMagnitude 0 scaledCost.toList).val =
      (Scalar.maxMagnitude 0 scaledCost.toList).val +
        3 * (n * (Scalar.maxMagnitude 0 scaledCost.toList).val) := by ring
  omega

/-- All phases together do not overflow. -/
theorem scaledFlow_ne_overflow (hflow : p.amounts.Feasible flow) :
    (scaledFlow fuel p alpha flow).NoOverflow := by
  let _ := ExactCosts.ofWidth w
  unfold scaledFlow
  refine (Logged.noOverflow_ofExcept _).bind fun scaledCost hscaled => ?_
  have hscaled := Logged.outcome_ofExcept_eq_ok.mp hscaled
  have hmagnitudes := magnitudeOperations_scaledCosts_fit htop hnonneg
    (scaled_fits hnonneg hfits) hscaled
  refine (Logged.noOverflow_ofRun
    (Scalar.checked_ne_overflow (by simpa using hmagnitudes))).bind fun _ _ => ?_
  dsimp only
  split
  · rename_i hpos
    obtain ⟨hcost, htwo, hfits'⟩ := phases_ready htop hnonneg hfits hscaled hpos
    have hfeasible : (scaled p scaledCost).exact.Feasible flow := Problem.feasible_amounts.mp hflow
    refine (Logged.noOverflow_ofRun
      (phases_ne_overflow rfl hfeasible hcost htwo hfits')).bind fun last _ => ?_
    cases last <;> exact Logged.noOverflow_of_ok rfl
  · exact Logged.noOverflow_of_ok rfl

/-- Cost scaling on words does not overflow as long as what the phases lower potentials by fits the
width, and so does what all residual arcs cost, as often as there are nodes. -/
theorem solve_ne_overflow (hp : p.exact.Prepared) (hcycles : n * (2 * m * top) + top < w.half)
    (fuel alpha : Nat) : (solve fuel p alpha).NoOverflow := by
  unfold solve
  refine (noOverflow_feasibleFlow p).bind fun first hfirst => ?_
  cases first with
  | none => exact Logged.noOverflow_of_ok rfl
  | some flow =>
      have hflow := feasible_of_feasibleFlow hp.amounts hfirst
      refine (scaledFlow_ne_overflow htop hnonneg hfits hflow).bind fun second _ => ?_
      cases second with
      | none => exact Logged.noOverflow_of_ok rfl
      | some flow' =>
          refine (Logged.noOverflow_ofRun (Residual.cancelNegativeCycles_ne_overflow htop hnonneg
            hcycles hp.tolerance_eq fuel)).bind fun last _ => ?_
          dsimp only
          split <;> exact Logged.noOverflow_of_ok rfl

end Solve

end CostScaling

end NetworkFlow
