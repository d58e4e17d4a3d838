import NetworkFlow.Proofs.BellmanFord.Words
import NetworkFlow.Proofs.CostScaling.Optimal

/-!
# Cost scaling on words

The words of a run are the scaled costs, the potentials and epsilon, and in the last pass the
distances. As long as what is computed from them fits, a step of a discharge tries the same
residual arc on words as on integers and finds the same thing, a node is lowered to the same
potential, epsilon shrinks in the same way, and the same cycles are cancelled. So a run on words is
the run on integers unless one of its operations leaves the range.

## Main results

* `Residual.exact_relaxation`: what Bellman-Ford says of the open arcs.
* `dischargeStep_exact`, `nextEpsilon_exact`: the steps of the phases.
* `lockstep_solve`: the run on words is in lockstep with the run on integers.
-/

namespace NetworkFlow

open scoped ExactCosts

variable {n m : Nat} {w : Width}

namespace Residual

variable [inst : ExactCosts] {p : Problem n m (Word w)} {flow : Table Int m}

/-- What Bellman-Ford says of the open arcs on words it says on integers, if all that it takes
fits. -/
theorem exact_relaxation (h : ∀ op ∈ relaxationOperations p flow, op.Fits) :
    (relaxation p flow).exact = relaxation p.exact flow := by
  obtain ⟨hprices, hrun⟩ := List.forall_mem_append.mp h
  have hreads : (costed p).Reads (costed p.exact) (openArcs p flow) := by
    refine ⟨rfl, rfl, fun r hr => ?_⟩
    show Problem.residualCost p.exact.cost r = (Problem.residualCost p.cost r).val
    rw [val_residualCost fun op hop => hprices op (List.mem_flatMap.mpr ⟨r, hr, hop⟩),
      residualCost_eq]
    rfl
  exact BellmanFord.exact_run hreads hrun

/-- The same cycle is cancelled on words as on integers. -/
theorem cancelOne_exact {s : Cancelling m} (h : ∀ op ∈ relaxationOperations p s.flow, op.Fits) :
    cancelOne p.exact s = cancelOne p s := by
  unfold cancelOne
  rw [← exact_relaxation h]
  cases relaxation p s.flow with
  | converged dist => rfl
  | negativeCycle cycle => cases cycle <;> rfl

/-- Cancelling cycles on words is in lockstep with cancelling them on integers. -/
theorem lockstep_cancelNegativeCycles (fuel : Nat) (flow : Table Int m) :
    Lockstep id (cancelNegativeCycles p fuel flow) (cancelNegativeCycles p.exact fuel flow) := by
  unfold cancelNegativeCycles
  refine .iterate (e := fun s => s) (fun s => .checked fun h => ?_) fuel
    (Cancelling.mk flow 0)
  rw [cancelOne_exact h]
  cases cancelOne p s <;> rfl

/-- The distances of the last pass on words are those on integers, if what they take fits. -/
theorem potentials_exact (h : ∀ op ∈ relaxationOperations p flow, op.Fits) :
    potentials p.exact flow = (potentials p flow).map (·.val) := by
  unfold potentials
  rw [← exact_relaxation h]
  cases relaxation p flow with
  | converged dist => rfl
  | negativeCycle cycle =>
      simp only [Relaxation.exact, Table.map_const, val_zero, scalar_zero_eq]

omit inst in
/-- The last look for a cycle has computed the distances that are handed out. -/
theorem fits_of_cancelNegativeCycles {fuel : Nat} {s : Cancelling m}
    (h : cancelNegativeCycles p fuel flow = .ok s) :
    ∀ op ∈ relaxationOperations p s.flow, op.Fits := by
  refine iterate_invariant (P := fun _ : Cancelling m => True)
    (Q := fun s : Cancelling m => ∀ op ∈ relaxationOperations p s.flow, op.Fits)
    (fun _ _ _ _ => trivial) (fun s s' _ hstep => ?_) trivial h
  obtain ⟨hfits, hdone⟩ := Scalar.checked_eq_ok.mp hstep
  rw [cancelOne_ends hdone]
  exact fun op hop => fits_word_iff.mp (hfits op hop)

end Residual

namespace CostScaling

/-- The network with its costs read as integers. -/
def Scaled.exact (p : Scaled n m (Word w)) : Scaled n m Int :=
  { p.toProblem.exact with rows := p.rows, scaledCost := p.scaledCost.map (·.val) }

/-- The state with its potentials read as integers. -/
def State.exact (s : State n m (Word w)) : State n m Int :=
  { s with potential := s.potential.map (·.val) }

/-- The flow between two phases with its potentials read as integers. -/
def Phase.exact (s : Phase n m (Word w)) : Phase n m Int :=
  { state := s.state.exact, epsilon := s.epsilon.val, count := s.count }

section Refine

variable [inst : ExactCosts] {p : Scaled n m (Word w)} {s : State n m (Word w)} {epsilon : Word w}
  {u : Fin n} {fuel : Nat}

theorem admissible_exact {r : ResidualArc m} (h : ∀ op ∈ admissibleOperations p s r, op.Fits) :
    admissible p.exact s.exact r = admissible p s r := by
  have hroom : p.exact.room s.exact.flow r = p.room s.flow r := rfl
  unfold admissibleOperations at h
  unfold admissible
  rw [hroom]
  split at h
  · have hreduced : (p.reducedCost p.scaledCost s.potential r).val =
        p.exact.reduced p.exact.scaledCost s.exact.potential r := Problem.val_reducedCost h
    simp only [scalar_lt_iff, word_lt_iff, reducedCost_eq, scalar_zero_eq, val_zero, hreduced]
  · rename_i hnone
    simp [hnone]

theorem saturate_exact {r : ResidualArc m} (h : ∀ op ∈ admissibleOperations p s r, op.Fits) :
    (saturate p s r).exact = saturate p.exact s.exact r := by
  unfold saturate
  rw [admissible_exact h]
  split <;> rfl

/-- The potential to which a node is lowered is the same on words as on integers. -/
theorem highest_exact (h : ∀ op ∈ highestOperations p s u, op.Fits) :
    highest p.exact s.exact u = (highest p s u).map (·.val) := by
  have hallowed : ∀ r ∈ p.rows[u].toList.filter (0 < p.room s.flow ·),
      s.exact.potential[p.exact.target r] - Problem.residualCost p.exact.scaledCost r =
        (s.potential[p.target r] - Problem.residualCost p.scaledCost r).val := by
    intro r hr
    have hr := fun op hop => h op (List.mem_flatMap.mpr ⟨r, hr, hop⟩)
    obtain ⟨hprice, hsub⟩ := List.forall_mem_append.mp hr
    rw [CostOperation.val_sub (hsub _ (List.mem_singleton_self _)), val_residualCost hprice,
      residualCost_eq]
    exact congrArg (· - _) (Table.getElem_map _ _ _)
  have hrows : p.exact.rows[u].toList.filter (0 < p.exact.room s.exact.flow ·) =
      p.rows[u].toList.filter (0 < p.room s.flow ·) := rfl
  unfold highest
  rw [hrows]
  generalize p.rows[u].toList.filter (0 < p.room s.flow ·) = rs at hallowed
  rw [← Option.map_none (f := Word.val (w := w))]
  generalize (none : Option (Word w)) = best
  induction rs generalizing best with
  | nil => rfl
  | cons r rs ih =>
      rw [List.foldl_cons, List.foldl_cons, ← ih fun r' hr' => hallowed r' (by simp [hr'])]
      congr 1
      have hr := hallowed r (by simp)
      simp only [scalar_sub_eq, hr]
      cases best with
      | none => rfl
      | some b =>
          simp only [Option.map_some, scalar_lt_iff, word_lt_iff]
          split <;> rfl

/-- A node is lowered on words as on integers, if what that takes fits. -/
theorem relabel_exact (h : ∀ op ∈ relabelOperations p epsilon s u, op.Fits) :
    relabel p.exact epsilon.val s.exact u = (relabel p epsilon s u).map State.exact := by
  unfold relabelOperations at h
  obtain ⟨hhighest, hlower⟩ := List.forall_mem_append.mp h
  unfold relabel
  rw [highest_exact hhighest]
  cases hbest : highest p s u with
  | none => rfl
  | some best =>
      rw [hbest] at hlower
      have hval := CostOperation.val_sub (hlower _ (List.mem_singleton_self _))
      simp only [Option.map_some, State.exact, Table.map_set, hval, scalar_sub_eq]

/-- A step of a discharge on words is the one on integers, if what it takes fits. -/
theorem dischargeStep_exact (h : ∀ op ∈ dischargeOperations p epsilon u s, op.Fits) :
    dischargeStep p.exact epsilon.val u s.exact =
      (dischargeStep p epsilon u s).map State.exact (Option.map State.exact) := by
  have hexcess : s.exact.excess = s.excess := rfl
  have hnext : p.exact.rows[u][s.exact.current[u]]? = p.rows[u][s.current[u]]? := rfl
  unfold dischargeOperations at h
  unfold dischargeStep
  rw [hexcess, hnext]
  split at h
  · rename_i hnone
    rw [if_pos hnone, if_pos hnone]
    rfl
  · rename_i hpos
    rw [if_neg hpos, if_neg hpos]
    cases hplace : p.rows[u][s.current[u]]? with
    | some r =>
        rw [hplace] at h
        simp only [admissible_exact h]
        split <;> rfl
    | none =>
        rw [hplace] at h
        simp only [relabel_exact h]
        cases relabel p epsilon s u <;> rfl

theorem lockstep_discharge (s : State n m (Word w)) (u : Fin n) :
    Lockstep (Option.map State.exact) (discharge p fuel epsilon s u)
      (discharge p.exact fuel epsilon.val s.exact u) := by
  unfold discharge
  exact .iterate (e := State.exact) (fun s => .checked dischargeStep_exact) fuel s

theorem lockstep_queueStep (s : State n m (Word w)) :
    Lockstep (Step.map State.exact (Option.map State.exact)) (queueStep p fuel epsilon s)
      (queueStep p.exact fuel epsilon.val s.exact) := by
  have hwaiting : s.exact.active = s.active := rfl
  unfold queueStep
  rw [hwaiting]
  cases s.active with
  | nil => exact .of_eq_map rfl
  | cons u rest =>
      refine (lockstep_discharge { s with active := rest } u).bind fun o _ => .of_eq_map ?_
      cases o <;> rfl

/-- A refinement on words is in lockstep with the one on integers. -/
theorem lockstep_refine (s : State n m (Word w)) :
    Lockstep (Option.map State.exact) (refine p fuel epsilon s)
      (refine p.exact fuel epsilon.val s.exact) := by
  unfold refine
  refine .guard fun hfill => ?_
  have hfilled : (ResidualArc.all m).foldl (saturate p.exact) s.exact =
      ((ResidualArc.all m).foldl (saturate p) s).exact :=
    (foldl_of_fits (e := State.exact) (fun _ _ _ => saturate_exact) hfill).symm
  rw [hfilled]
  exact .iterate (e := State.exact) lockstep_queueStep fuel
    { (ResidualArc.all m).foldl (saturate p) s with current := .const n 0 }

end Refine

section Phases

variable [inst : ExactCosts] {p : Scaled n m (Word w)} {epsilon largest : Word w}
  {alpha fuel : Nat}

omit inst in
/-- Epsilon is divided by two at least. A divisor that is no word counts as the largest one. -/
theorem val_divisor (alpha : Nat) : 2 ≤ (Scalar.ofCount (max alpha 2) : Word w).val ∧
    ((Scalar.ofCount (max alpha 2) : Word w).val = (max alpha 2 : Nat) ∨
      w.half ≤ max alpha 2 ∧ (Scalar.ofCount (max alpha 2) : Word w).val = w.half - 1) := by
  have htwo : (2 : Int) < w.half := by cases w <;> decide
  change 2 ≤ (Word.clamp ((max alpha 2 : Nat) : Int) : Word w).val ∧
    ((Word.clamp ((max alpha 2 : Nat) : Int) : Word w).val = (max alpha 2 : Nat) ∨
      w.half ≤ max alpha 2 ∧ (Word.clamp ((max alpha 2 : Nat) : Int) : Word w).val = w.half - 1)
  by_cases hfits : w.Fits ((max alpha 2 : Nat) : Int)
  · rw [Word.clamp_of_fits hfits]
    exact ⟨by simp only; omega, Or.inl rfl⟩
  · have hval : (Word.clamp ((max alpha 2 : Nat) : Int) : Word w).val = w.half - 1 := by
      unfold Word.clamp
      rw [dif_neg hfits, if_neg (by omega)]
      rfl
    rw [hval]
    refine ⟨by omega, Or.inr ⟨?_, rfl⟩⟩
    by_contra hlt
    exact hfits ⟨by omega, by omega⟩

omit inst in
theorem val_nextEpsilon
    (h : CostOperation.Fits (.div epsilon (Scalar.ofCount (max alpha 2)))) :
    (nextEpsilon alpha epsilon).val =
      max 1 (epsilon.val.tdiv (Scalar.ofCount (max alpha 2) : Word w).val) := by
  rw [← CostOperation.val_div h]
  show (if true = true ∧ (epsilon / Scalar.ofCount (max alpha 2)).val < 1 then (1 : Word w)
    else epsilon / Scalar.ofCount (max alpha 2)).val = _
  split
  · rename_i hsmall
    exact (max_eq_left hsmall.2.le).symm
  · rename_i hlarge
    exact (max_eq_right (not_lt.mp fun hlt => hlarge ⟨rfl, hlt⟩)).symm

/-- Epsilon shrinks on words as it does on integers. Divided by what is no word it is one on both
sides. -/
theorem nextEpsilon_exact
    (h : CostOperation.Fits (.div epsilon (Scalar.ofCount (max alpha 2)))) :
    nextEpsilon alpha epsilon.val = (nextEpsilon alpha epsilon).val := by
  rw [val_nextEpsilon h, nextEpsilon_eq]
  obtain ⟨htwo, heq | ⟨hlarge, heq⟩⟩ := val_divisor (w := w) alpha
  · rw [heq]
  · obtain ⟨hlow, hhigh⟩ := epsilon.fits
    have hword : epsilon.val.tdiv (Scalar.ofCount (max alpha 2) : Word w).val ≤ 1 := by
      have habs : (epsilon.val.tdiv (Scalar.ofCount (max alpha 2) : Word w).val).natAbs =
          epsilon.val.natAbs / (Scalar.ofCount (max alpha 2) : Word w).val.natAbs :=
        Int.natAbs_tdiv _ _
      have hlt : epsilon.val.natAbs / (Scalar.ofCount (max alpha 2) : Word w).val.natAbs < 2 := by
        rw [Nat.div_lt_iff_lt_mul (by omega)]
        omega
      omega
    have hint : epsilon.val.tdiv ((max alpha 2 : Nat) : Int) ≤ 1 := by
      have habs : (epsilon.val.tdiv ((max alpha 2 : Nat) : Int)).natAbs =
          epsilon.val.natAbs / ((max alpha 2 : Nat) : Int).natAbs := Int.natAbs_tdiv _ _
      have hlt : epsilon.val.natAbs / ((max alpha 2 : Nat) : Int).natAbs < 2 := by
        rw [Nat.div_lt_iff_lt_mul (by omega)]
        omega
      omega
    rw [max_eq_left hint, max_eq_left hword]

theorem lockstep_phaseStep (s : Phase n m (Word w)) :
    Lockstep (Step.map Phase.exact (Option.map Phase.exact))
      (phaseStep p fuel alpha (Scalar.finest largest) s)
      (phaseStep p.exact fuel alpha (Scalar.finest largest.val) s.exact) := by
  unfold phaseStep
  refine .guard fun hdivided => ?_
  have hnext : nextEpsilon alpha s.exact.epsilon = (nextEpsilon alpha s.epsilon).val :=
    nextEpsilon_exact (hdivided _ (List.mem_singleton_self _))
  simp only [hnext, finest_eq, scalar_le_iff]
  refine (lockstep_refine s.state).bind fun o _ => .of_eq_map ?_
  cases o with
  | none => rfl
  | some state =>
      show (if (nextEpsilon alpha s.epsilon).val ≤ 1 then _ else _) =
        Except.map _ (if (nextEpsilon alpha s.epsilon).val ≤ 1 then _ else _)
      split <;> rfl

/-- The phases on words are in lockstep with those on integers. -/
theorem lockstep_phases (flow : Table Int m) :
    Lockstep (Option.map Phase.exact) (phases p fuel alpha largest flow)
      (phases p.exact fuel alpha largest.val flow) := by
  have hstart : (State.mk flow (.const n (0 : Word w)) (.const n 0) (.const n 0) []).exact =
      State.mk flow (.const n 0) (.const n 0) (.const n 0) [] := by
    unfold State.exact
    rw [Table.map_const, val_zero]
  unfold phases
  rw [scalar_zero_eq, ← hstart]
  exact .iterate (e := Phase.exact) lockstep_phaseStep fuel
    { state := State.mk flow (.const n 0) (.const n 0) (.const n 0) [], epsilon := largest, count := 0 }

end Phases

section Solve

/-- A scaled cost that is not refused is the product. -/
theorem mul?_of_scaledCosts {α : Type} [Scalar α] {p : Problem n m α} {scaledCost : Table α m}
    (h : scaledCosts p = .ok scaledCost) (a : Fin m) :
    Scalar.mul? p.cost[a] (Scalar.ofCount (n + 1)) = some scaledCost[a] := by
  have hget := getElem_of_mapM h a
  split at hget
  · rename_i scaled hscaled
    cases hget
    exact hscaled
  · cases hget

/-- A scaled cost that is refused has no product. -/
theorem exists_mul?_eq_none {α : Type} [Scalar α] {p : Problem n m α} {cause : Error}
    (h : scaledCosts p = .error cause) :
    cause = .arithmeticOverflow ∧
      ∃ a : Fin m, Scalar.mul? p.cost[a] (Scalar.ofCount (n + 1)) = none := by
  obtain ⟨a, ha⟩ := exists_error_of_mapM h
  split at ha
  · cases ha
  · rename_i hnone
    cases ha
    exact ⟨rfl, a, hnone⟩

variable [inst : ExactCosts] {p : Problem n m (Word w)}

/-- The scaled costs on words are those on integers. -/
theorem scaledCosts_exact (hwidth : inst.width = w) (hcount : (n : Int) + 1 < w.half) :
    scaledCosts p.exact = (scaledCosts p).map (Table.map (·.val)) := by
  have hmul : ∀ a : Fin m, Scalar.mul? p.exact.cost[a] (Scalar.ofCount (n + 1)) =
      (Scalar.mul? p.cost[a] (Scalar.ofCount (n + 1))).map (·.val) := by
    intro a
    rw [← mul?_val hwidth, val_ofCount_succ hcount, ofCount_eq]
    push_cast
    exact congrArg (Scalar.mul? · _) (Table.getElem_map _ _ a)
  cases hword : scaledCosts p with
  | error cause =>
      obtain ⟨rfl, a, hnone⟩ := exists_mul?_eq_none hword
      cases hexact : scaledCosts p.exact with
      | error cause' => rw [(exists_mul?_eq_none hexact).1]; rfl
      | ok scaledCost =>
          have hsome := mul?_of_scaledCosts hexact a
          rw [hmul, hnone] at hsome
          cases hsome
  | ok scaledCost =>
      cases hexact : scaledCosts p.exact with
      | error cause =>
          obtain ⟨-, a, hnone⟩ := exists_mul?_eq_none hexact
          rw [hmul, mul?_of_scaledCosts hword] at hnone
          cases hnone
      | ok scaledCost' =>
          refine congrArg Except.ok (Table.ext fun a => ?_)
          have hint := mul?_of_scaledCosts hexact a
          rw [hmul, mul?_of_scaledCosts hword] at hint
          rw [Table.getElem_map]
          exact (Option.some.inj hint).symm

variable (hwidth : inst.width = w) (hcount : (n : Int) + 1 < w.half) (fuel alpha : Nat)
include hwidth hcount

/-- The flow that the phases leave is the same on words as on integers, unless they overflow. -/
theorem lockstep_scaledFlow (flow : Table Int m) :
    Logged.Lockstep id (scaledFlow fuel p alpha flow) (scaledFlow fuel p.exact alpha flow) := by
  unfold scaledFlow
  refine .bind (.ofExcept (scaledCosts_exact hwidth hcount)) fun scaledCost _ => ?_
  refine .guard fun hmagnitudes => ?_
  have hlargest : Scalar.maxMagnitude 0 (scaledCost.map (·.val)).toList =
      (Scalar.maxMagnitude 0 scaledCost.toList).val := (val_maxMagnitude_table hmagnitudes).symm
  simp only [scalar_zero_eq, hlargest, scalar_lt_iff, word_lt_iff, val_zero]
  split
  · have hphases : Lockstep (Option.map Phase.exact)
        (phases { p with rows := p.rows, scaledCost } fuel alpha
          (Scalar.maxMagnitude 0 scaledCost.toList) flow)
        (phases { p.exact with rows := p.exact.rows, scaledCost := scaledCost.map (·.val) } fuel
          alpha (Scalar.maxMagnitude 0 scaledCost.toList).val flow) :=
      lockstep_phases (p := { p with rows := p.rows, scaledCost }) flow
    refine .bind (.ofRun hphases) fun o _ => .of_eq_map ?_
    cases o <;> rfl
  · exact .refl _

/-- Cost scaling on words is in lockstep with cost scaling on integers. -/
theorem lockstep_solve :
    Logged.Lockstep Outcome.exact (solve fuel p alpha) (solve fuel p.exact alpha) := by
  unfold solve
  refine .bind (.refl (feasibleFlow fuel p)) fun first _ => ?_
  cases first with
  | none => exact .of_eq_map rfl
  | some flow =>
      refine .bind (lockstep_scaledFlow hwidth hcount fuel alpha flow) fun second _ => ?_
      cases second with
      | none => exact .of_eq_map rfl
      | some flow' =>
          refine .bind (.ofRun (Residual.lockstep_cancelNegativeCycles fuel flow')) fun last hlast =>
            .of_eq_map ?_
          have hpotentials : Residual.potentials p.exact last.flow =
              (Residual.potentials p last.flow).map (·.val) :=
            Residual.potentials_exact
              (Residual.fits_of_cancelNegativeCycles (Logged.outcome_ofRun_eq_ok.mp hlast))
          simp only [id_eq, hpotentials]
          split <;> rfl

end Solve

end CostScaling

end NetworkFlow
