import NetworkFlow.CostScaling.Solve
import NetworkFlow.Proofs.CostScaling.Refine
import NetworkFlow.Proofs.MaxFlow.Feasible
import NetworkFlow.Proofs.Residual

/-!
# Cost scaling is correct

A maximum flow decides whether some flow is feasible and if so gives one. Every phase
turns a feasible flow into another one, because it ends with no excess anywhere; and
epsilon shrinks until it is one. The last pass leaves no negative cycle, keeps the
balances, and its distances certify the flow.

Sums and products that are out of range are refused; nothing else is.

## Main results

* `phases_spec`: the last phase leaves a feasible flow that is optimal up to one.
* `ends_solve`: cost scaling ends.
* `solve_correct`, `costScaling_correct`: a feasible answer is an optimal flow with
  potentials that certify it, and `infeasible` means that no flow is feasible.
-/

namespace NetworkFlow.CostScaling

open Finset
open scoped ExactCosts

variable {n m fuel alpha : Nat}

section Flow

variable {α : Type} [Scalar α]

/-- A phase starts from a feasible flow. -/
structure Settled (p : Scaled n m α) (s : State n m α) : Prop extends Sound p s where
  excess_eq : ∀ v : Fin n, s.excess[v] = 0

section Phases

variable {p : Scaled n m α} {flow : Table Int m}

omit [Scalar α] in
theorem Settled.feasible {s : State n m α} (h : Settled p s) : p.amounts.Feasible s.flow := by
  refine ⟨h.within, fun v => ?_⟩
  have := h.balanced v
  rw [h.excess_eq, zero_add] at this
  exact this

omit [Scalar α] in
theorem Settled.waits {s : State n m α} (h : Settled p s) : WaitsBut (fun _ => False) s := by
  intro v _ hpos
  rw [h.excess_eq] at hpos
  omega

omit [Scalar α] in
/-- The state before the first phase. -/
theorem settled_start (hflow : p.amounts.Feasible flow) (potential : Table α n) :
    Settled p { flow, potential, excess := .const n 0, current := .const n 0, active := [] } := by
  refine ⟨⟨hflow.within, fun v => ?_⟩, fun v => by simp⟩
  rw [Table.getElem_const, zero_add]
  exact hflow.balanced v

/-- What a phase does: it is one more refinement, unless this gets stuck, and the last one if its
epsilon is not above the finest. -/
theorem phaseStep_cases {finest : α} {s : Phase n m α}
    {o : Step (Phase n m α) (Option (Phase n m α))}
    (hstep : phaseStep p fuel alpha finest s = .ok o) :
    (refine p fuel (nextEpsilon alpha s.epsilon) s.state = .ok none ∧ o = .done none) ∨
      ∃ s', refine p fuel s'.epsilon s.state = .ok (some s'.state) ∧
        s'.epsilon = nextEpsilon alpha s.epsilon ∧ s'.count = s.count + 1 ∧
        (o = .next s' ∧ ¬ s'.epsilon ≤ finest ∨ o = .done (some s') ∧ s'.epsilon ≤ finest) := by
  unfold phaseStep at hstep
  obtain ⟨-, hstep⟩ := Scalar.inRange_bind_eq_ok.mp hstep
  obtain ⟨result, hrefine, hstep⟩ := bind_eq_ok.mp hstep
  cases result with
  | none => exact Or.inl ⟨hrefine, (Except.ok.inj hstep).symm⟩
  | some state =>
      refine Or.inr ⟨{ state, epsilon := nextEpsilon alpha s.epsilon, count := s.count + 1 },
        hrefine, rfl, rfl, ?_⟩
      simp only at hstep
      split at hstep <;> cases hstep
      · exact Or.inr ⟨rfl, ‹_›⟩
      · exact Or.inl ⟨rfl, ‹_›⟩

/-- A refinement that does not get stuck leaves a feasible flow. -/
theorem settled_refine (hp : ∑ v : Fin n, p.supply[v] = 0) {epsilon : α} {s s' : State n m α}
    (hs : Settled p s) (hrefine : refine p fuel epsilon s = .ok (some s')) : Settled p s' := by
  obtain ⟨hsound, hzero⟩ := sound_refine hp hs.toSound hs.waits hrefine
  exact ⟨hsound, hzero⟩

/-- A phase that does not get stuck leaves a feasible flow. -/
theorem settled_phaseStep (hp : ∑ v : Fin n, p.supply[v] = 0) {finest : α} {s s' : Phase n m α}
    (hs : Settled p s.state)
    (hstep : phaseStep p fuel alpha finest s = .ok (.next s') ∨
      phaseStep p fuel alpha finest s = .ok (.done (some s'))) : Settled p s'.state := by
  rcases hstep with hstep | hstep <;>
    rcases phaseStep_cases hstep with ⟨-, ⟨⟩⟩ | ⟨s₁, hrefine, -, -, ⟨⟨⟩, -⟩ | ⟨⟨⟩, -⟩⟩ <;>
    exact settled_refine hp hs hrefine

/-- In any arithmetic, phases that do not get stuck leave a feasible flow. -/
theorem settled_phases (hp : ∑ v : Fin n, p.supply[v] = 0) (hflow : p.amounts.Feasible flow)
    {largest : α} {last : Phase n m α}
    (h : phases p fuel alpha largest flow = .ok (some last)) : Settled p last.state := by
  refine iterate_invariant (P := fun s : Phase n m α => Settled p s.state)
    (Q := fun o => ∀ last, o = some last → Settled p last.state) ?_ ?_
    (settled_start hflow _) h last rfl
  · exact fun s s' hs hstep => settled_phaseStep hp hs (Or.inl hstep)
  · rintro s o hs hstep last rfl
    exact settled_phaseStep hp hs (Or.inr hstep)

end Phases

variable {p : Problem n m α} {flow : Table Int m}

theorem scaledFlow_feasible (hp : ∑ v : Fin n, p.supply[v] = 0) (hflow : p.amounts.Feasible flow)
    {flow' : Table Int m} (h : (scaledFlow fuel p alpha flow).outcome = .ok (some flow')) :
    p.amounts.Feasible flow' := by
  unfold scaledFlow at h
  obtain ⟨scaledCost, -, h⟩ := Logged.outcome_bind_eq_ok.mp h
  obtain ⟨-, -, h⟩ := Logged.outcome_bind_eq_ok.mp h
  simp only at h
  split at h
  · obtain ⟨result, hphases, h⟩ := Logged.outcome_bind_eq_ok.mp h
    cases result with
    | none => cases h
    | some last =>
        cases h
        exact (settled_phases (p := { p with rows := p.rows, scaledCost }) hp hflow
          (Logged.outcome_ofRun_eq_ok.mp hphases)).feasible
  · cases h
    exact hflow

/-- In any arithmetic, the flow of a feasible answer is feasible. -/
theorem solve_feasible (hp : p.amounts.Prepared) {potential : Table α n}
    (h : (solve fuel p alpha).outcome = .ok (.feasible flow potential)) :
    p.amounts.Feasible flow := by
  unfold solve at h
  obtain ⟨first, hfirst, h⟩ := Logged.outcome_bind_eq_ok.mp h
  rcases feasibleFlow_spec (p := p.amounts) hp hfirst with ⟨flow₁, rfl, hflow₁⟩ | ⟨rfl, -⟩
  swap
  · cases h
  obtain ⟨second, hsecond, h⟩ := Logged.outcome_bind_eq_ok.mp h
  cases second with
  | none => cases h
  | some flow₂ =>
      have hflow₂ : p.amounts.Feasible flow₂ :=
        scaledFlow_feasible (p := p) hp.sum_supply hflow₁ hsecond
      obtain ⟨last, hlast, h⟩ := Logged.outcome_bind_eq_ok.mp h
      obtain ⟨hwithin, hbalance⟩ := Residual.cancelNegativeCycles_within (p := p) hflow₂.within
        (Logged.outcome_ofRun_eq_ok.mp hlast)
      have hlastFlow : flow = last.flow := by
        split at h <;> cases h <;> rfl
      rw [hlastFlow]
      exact ⟨hwithin, fun v => (hbalance v).trans (hflow₂.balanced v)⟩

/-- The answer is never that the cost has no lower bound. -/
theorem solve_ne_unbounded : (solve fuel p alpha).outcome ≠ .ok .unbounded := by
  intro h
  unfold solve at h
  obtain ⟨first, -, h⟩ := Logged.outcome_bind_eq_ok.mp h
  cases first with
  | none => cases h
  | some flow₁ =>
      obtain ⟨second, -, h⟩ := Logged.outcome_bind_eq_ok.mp h
      cases second with
      | none => cases h
      | some flow₂ =>
          obtain ⟨last, -, h⟩ := Logged.outcome_bind_eq_ok.mp h
          split at h <;> cases h

section Refusals

variable {causes : Error → Prop}

theorem refusesOnly_scaledFlow {p : Problem n m α}
    (h : ∀ cause, scaledCosts p = .error cause → causes cause) :
    (scaledFlow fuel p alpha flow).RefusesOnly causes := by
  refine (Logged.refusesOnly_ofExcept h).bind fun scaledCost _ => ?_
  refine (Logged.refusesOnly_ofRun _).bind fun _ _ => ?_
  simp only
  split
  · refine (Logged.refusesOnly_ofRun _).bind fun result _ => ?_
    cases result <;> exact Logged.refusesOnly_of_ok rfl
  · exact Logged.refusesOnly_of_ok rfl

/-- Cost scaling is refused only as its search for a feasible flow is or a scaled cost. -/
theorem refusesOnly_solve (hfeasible : (feasibleFlow fuel p).RefusesOnly causes)
    (hscaled : ∀ cause, scaledCosts p = .error cause → causes cause) :
    (solve fuel p alpha).RefusesOnly causes := by
  refine hfeasible.bind fun first _ => ?_
  cases first with
  | none => exact Logged.refusesOnly_of_ok rfl
  | some flow =>
      refine (refusesOnly_scaledFlow hscaled).bind fun second _ => ?_
      cases second with
      | none => exact Logged.refusesOnly_of_ok rfl
      | some flow' =>
          refine (Logged.refusesOnly_ofRun _).bind fun last _ => ?_
          split <;> exact Logged.refusesOnly_of_ok rfl

theorem scaledCosts_error {cause : Error} (h : scaledCosts p = .error cause) :
    cause = .arithmeticOverflow := by
  obtain ⟨a, ha⟩ := exists_error_of_mapM h
  split at ha <;> cases ha
  rfl

/-- What is refused is out of range. -/
theorem solve_error {p : Problem n m Int} [Scalar Int] {cause : Error}
    (h : (solve fuel p alpha).outcome = .error (.refused cause)) : cause = .arithmeticOverflow := by
  have hsolve : (solve fuel p alpha).RefusesOnly (· = .arithmeticOverflow) :=
    refusesOnly_solve (refusesOnly_feasibleFlow (fun _ => p.demand_error) fun _ => MaxFlow.run_error)
      fun _ => scaledCosts_error
  exact hsolve cause h

end Refusals

end Flow

variable [inst : ExactCosts]

section Schedule

theorem nextEpsilon_eq (alpha : Nat) (epsilon : Int) :
    nextEpsilon alpha epsilon = max 1 (epsilon.tdiv (max alpha 2 : Nat)) := by
  obtain ⟨w, h⟩ := inst
  subst h
  show (if true = true ∧ epsilon.tdiv (max alpha 2 : Nat) < 1 then (1 : Int)
    else epsilon.tdiv (max alpha 2 : Nat)) = _
  split
  · rename_i hsmall
    exact (max_eq_left hsmall.2.le).symm
  · rename_i hlarge
    exact (max_eq_right (not_lt.mp fun hlt => hlarge ⟨rfl, hlt⟩)).symm

theorem one_le_nextEpsilon (alpha : Nat) (epsilon : Int) : 1 ≤ nextEpsilon alpha epsilon := by
  rw [nextEpsilon_eq]
  exact le_max_left _ _

/-- Epsilon shrinks until it is one. -/
theorem nextEpsilon_lt {epsilon : Int} (hepsilon : 1 ≤ epsilon)
    (hnext : 1 < nextEpsilon alpha epsilon) : nextEpsilon alpha epsilon < epsilon := by
  rw [nextEpsilon_eq] at hnext ⊢
  rw [Int.tdiv_eq_ediv_of_nonneg (by omega)] at hnext ⊢
  have hdiv : epsilon / ((max alpha 2 : Nat) : Int) < epsilon := by
    apply Int.ediv_lt_of_lt_mul (by omega)
    have : (2 : Int) ≤ (max alpha 2 : Nat) := by omega
    nlinarith
  omega

end Schedule

section Phases

variable {p : Scaled n m Int} {flow : Table Int m} {largest finest : Int}

/-- What one phase leads to. -/
theorem phaseStep_spec (hrows : p.rows = p.toNetwork.rows) {s : Phase n m Int}
    (h : Settled p s.state) (hepsilon : 1 ≤ s.epsilon)
    {o : Step (Phase n m Int) (Option (Phase n m Int))}
    (hstep : phaseStep p fuel alpha 1 s = .ok o) :
    ∃ s', Settled p s'.state ∧ s'.epsilon = nextEpsilon alpha s.epsilon ∧
      (∀ r, 0 < p.room s'.state.flow r →
        -s'.epsilon ≤ p.reduced p.scaledCost s'.state.potential r) ∧
      ((o = .next s' ∧ s'.epsilon < s.epsilon) ∨ (o = .done (some s') ∧ s'.epsilon = 1)) := by
  have hone := one_le_nextEpsilon alpha s.epsilon
  have hspec := fun {result : Result n m Int}
      (hrefine : refine p fuel (nextEpsilon alpha s.epsilon) s.state = .ok result) =>
    refine_spec hrows hone ⟨_, Problem.feasible_amounts.mp h.feasible⟩ h.toSound h.waits hrefine
  rcases phaseStep_cases hstep with ⟨hstuck, -⟩ | ⟨s', hrefine, hnext, -, hends⟩
  · obtain ⟨_, ⟨⟩, -⟩ := hspec hstuck
  · rw [hnext] at hrefine
    obtain ⟨_, ⟨⟩, hsound, hzero, hoptimal⟩ := hspec hrefine
    rw [← hnext] at hoptimal hone
    simp only [scalar_le_iff] at hends
    refine ⟨s', ⟨hsound, hzero⟩, hnext, hoptimal, ?_⟩
    rcases hends with ⟨rfl, hcoarse⟩ | ⟨rfl, hfinest⟩
    · refine Or.inl ⟨rfl, ?_⟩
      rw [hnext] at hcoarse ⊢
      exact nextEpsilon_lt hepsilon (not_le.mp hcoarse)
    · exact Or.inr ⟨rfl, le_antisymm hfinest hone⟩

theorem exists_phaseStep (hrows : p.rows = p.toNetwork.rows) {s : Phase n m Int}
    (h : Settled p s.state) : ∃ fuel o, phaseStep p fuel alpha finest s = .ok o := by
  obtain ⟨fuel, o, ho⟩ := exists_refine hrows (one_le_nextEpsilon alpha s.epsilon)
    ⟨_, Problem.feasible_amounts.mp h.feasible⟩ h.toSound h.waits
  refine ⟨fuel, ?_⟩
  unfold phaseStep
  simp only [inRange_exact, ho, bind, Except.bind, pure, Except.pure]
  cases o with
  | none => exact ⟨_, rfl⟩
  | some state =>
      dsimp only
      split <;> exact ⟨_, rfl⟩

theorem phaseStep_mono {fuel' : Nat} (hfuel : fuel ≤ fuel') {s : Phase n m Int} :
    Persists (phaseStep p fuel alpha finest s) (phaseStep p fuel' alpha finest s) :=
  .bind .rfl fun _ => (refine_mono hfuel _).bind fun _ => .rfl

theorem phases_mono {fuel' : Nat} (hfuel : fuel ≤ fuel') :
    Persists (phases p fuel alpha largest flow) (phases p fuel' alpha largest flow) :=
  .iterate (fun _ => phaseStep_mono hfuel) hfuel

/-- The phases end. -/
theorem exists_phases (hrows : p.rows = p.toNetwork.rows) (hflow : p.Feasible flow)
    (hlargest : 0 < largest) : ∃ fuel o, phases p fuel alpha largest flow = .ok o := by
  unfold phases
  rw [finest_eq]
  refine exists_iterate_fueled (P := fun s => Settled p s.state ∧ 1 ≤ s.epsilon)
    (measure fun s : Phase n m Int => s.epsilon.toNat).wf ?_ ?_ ?_
    ⟨settled_start (Problem.feasible_amounts.mpr hflow) _, hlargest⟩
  · intro f f' s hf
    exact phaseStep_mono hf
  · rintro s ⟨hs, -⟩
    exact exists_phaseStep hrows hs
  · rintro f s s' ⟨hs, hepsilon⟩ hstep
    obtain ⟨s₁, h₁, heq, -, ⟨hnext, hless⟩ | ⟨hdone, -⟩⟩ := phaseStep_spec hrows hs hepsilon hstep
    · cases hnext
      have hone := one_le_nextEpsilon alpha s.epsilon
      rw [← heq] at hone
      refine ⟨⟨h₁, hone⟩, ?_⟩
      show s'.epsilon.toNat < s.epsilon.toNat
      omega
    · cases hdone

/-- The last phase leaves a feasible flow that is optimal up to an epsilon of one. -/
theorem phases_spec (hrows : p.rows = p.toNetwork.rows) (hflow : p.Feasible flow)
    (hlargest : 0 < largest) {o : Option (Phase n m Int)}
    (h : phases p fuel alpha largest flow = .ok o) :
    ∃ last, o = some last ∧ p.Feasible last.state.flow ∧
      ∀ r, 0 < p.room last.state.flow r →
        -1 ≤ p.reduced p.scaledCost last.state.potential r := by
  unfold phases at h
  rw [finest_eq] at h
  refine iterate_invariant (P := fun s => Settled p s.state ∧ 1 ≤ s.epsilon)
    (Q := fun o => ∃ last, o = some last ∧ p.Feasible last.state.flow ∧
      ∀ r, 0 < p.room last.state.flow r →
        -1 ≤ p.reduced p.scaledCost last.state.potential r) ?_ ?_
    ⟨settled_start (Problem.feasible_amounts.mpr hflow) _, hlargest⟩ h
  · rintro s s' ⟨hs, hepsilon⟩ hstep
    obtain ⟨s₁, h₁, heq, -, ⟨hnext, -⟩ | ⟨hdone, -⟩⟩ := phaseStep_spec hrows hs hepsilon hstep
    · cases hnext
      have hone := one_le_nextEpsilon alpha s.epsilon
      rw [← heq] at hone
      exact ⟨h₁, hone⟩
    · cases hdone
  · rintro s o ⟨hs, hepsilon⟩ hstep
    obtain ⟨s₁, h₁, -, hoptimal, ⟨hnext, -⟩ | ⟨hdone, hone⟩⟩ :=
      phaseStep_spec hrows hs hepsilon hstep
    · cases hnext
    · cases hdone
      rw [hone] at hoptimal
      exact ⟨s₁, rfl, Problem.feasible_amounts.mp h₁.feasible, hoptimal⟩

end Phases

section Scaling

variable {p : Problem n m Int} {flow : Table Int m}

/-- The phases end, also with no costs to be scaled. -/
theorem ends_scaledFlow (hflow : p.Feasible flow) :
    Logged.Ends fun fuel => scaledFlow fuel p alpha flow := by
  apply (Logged.ends_ofExcept (scaledCosts p)).bind
  intro _ scaledCost _
  simp only [inRange_exact]
  refine (Logged.ends_const (Logged.returns_of_ok (a := ()) rfl)).bind fun _ _ _ => ?_
  simp only [scalar_lt_iff, scalar_zero_eq]
  split
  · rename_i hlargest
    refine (Logged.ends_ofRun (fun _ _ => phases_mono)
      (exists_phases rfl hflow hlargest)).bind fun _ result _ => ?_
    cases result <;> exact Logged.ends_const (Logged.returns_of_ok rfl)
  · exact Logged.ends_const (Logged.returns_of_ok rfl)

/-- The phases leave a feasible flow. -/
theorem scaledFlow_spec (hflow : p.Feasible flow) {o : Option (Table Int m)}
    (h : (scaledFlow fuel p alpha flow).outcome = .ok o) :
    ∃ flow', o = some flow' ∧ p.Feasible flow' := by
  unfold scaledFlow at h
  obtain ⟨scaledCost, -, h⟩ := Logged.outcome_bind_eq_ok.mp h
  obtain ⟨-, -, h⟩ := Logged.outcome_bind_eq_ok.mp h
  simp only [scalar_lt_iff, scalar_zero_eq] at h
  split at h
  · rename_i hlargest
    obtain ⟨result, hphases, h⟩ := Logged.outcome_bind_eq_ok.mp h
    obtain ⟨last, rfl, hfeasible, -⟩ :=
      phases_spec rfl hflow hlargest (Logged.outcome_ofRun_eq_ok.mp hphases)
    cases h
    exact ⟨_, rfl, hfeasible⟩
  · cases h
    exact ⟨flow, rfl, hflow⟩

end Scaling

section Solve

variable {p : Problem n m Int} {flow : Table Int m}

theorem cancelNegativeCycles_mono {fuel' : Nat} (hfuel : fuel ≤ fuel') :
    Persists (Residual.cancelNegativeCycles p fuel flow)
      (Residual.cancelNegativeCycles p fuel' flow) :=
  .iterate (fun _ => .rfl) hfuel

/-- Cost scaling ends. -/
theorem ends_solve (hp : p.Prepared) (alpha : Nat) :
    Logged.Ends fun fuel => solve fuel p alpha := by
  apply (ends_feasibleFlow p).bind
  intro fuel first hfirst
  rcases feasibleFlow_spec hp hfirst with ⟨flow, rfl, hflow⟩ | ⟨rfl, -⟩
  · apply (ends_scaledFlow hflow).bind
    intro fuel second hsecond
    obtain ⟨flow', rfl, hflow'⟩ := scaledFlow_spec hflow hsecond
    refine (Logged.ends_ofRun (fun _ _ => cancelNegativeCycles_mono)
      (Residual.exists_cancelNegativeCycles hp.tolerance_eq hflow'.within)).bind
        fun _ last _ => Logged.ends_const ?_
    split <;> exact Logged.returns_of_ok rfl
  · exact Logged.ends_const (Logged.returns_of_ok rfl)

/-- The answer of cost scaling is right. -/
theorem solve_correct (hp : p.Prepared) {o : Outcome n m Int}
    (h : (solve fuel p alpha).outcome = .ok o) :
    (∃ flow potential, o = .feasible flow potential ∧
      p.Feasible flow ∧ p.Certifies flow potential) ∨
      (o = .infeasible ∧ ¬ ∃ flow, p.Feasible flow) := by
  unfold solve at h
  obtain ⟨first, hfirst, h⟩ := Logged.outcome_bind_eq_ok.mp h
  rcases feasibleFlow_spec hp hfirst with ⟨flow, rfl, hflow⟩ | ⟨rfl, hnone⟩
  · obtain ⟨second, hsecond, h⟩ := Logged.outcome_bind_eq_ok.mp h
    obtain ⟨flow', rfl, hflow'⟩ := scaledFlow_spec hflow hsecond
    obtain ⟨last, hlast, h⟩ := Logged.outcome_bind_eq_ok.mp h
    have hlast := Logged.outcome_ofRun_eq_ok.mp hlast
    obtain ⟨hwithin, hbalance⟩ := Residual.cancelNegativeCycles_within hflow'.within hlast
    obtain ⟨dist, hdist⟩ := Residual.cancelNegativeCycles_spec hp.tolerance_eq hlast
    have ho : o = .feasible last.flow (Residual.potentials p last.flow) := by
      split at h <;> cases h <;> rfl
    refine Or.inl ⟨_, _, ho, ⟨hwithin, fun v => ?_⟩, ?_⟩
    · rw [hbalance v, hflow'.balanced v]
    · exact Residual.certifies_potentials hp.tolerance_eq hdist
  · cases h
    exact Or.inr ⟨rfl, hnone⟩

end Solve

end NetworkFlow.CostScaling

namespace NetworkFlow.Configuration

variable {w cw : Width} {c : Configuration w (Word cw)}
  {p : Problem c.nodes c.arcs (Cost.Wide (Word cw))}

/-- On every problem that `prepare` returns, cost scaling ends for every alpha, with an answer or
because a number is out of range. A feasible answer is a flow of least cost with potentials that
certify it, and the answer is that the problem is infeasible exactly if no flow is feasible. -/
theorem costScaling_correct [ExactCosts] (hp : c.prepare.outcome = .ok (some p)) (alpha : Nat) :
    (∃ fuel, (CostScaling.solve fuel p.exact alpha).Returns) ∧
      ∀ fuel, (∀ cause, (CostScaling.solve fuel p.exact alpha).outcome = .error (.refused cause) →
          cause = .arithmeticOverflow) ∧
        ∀ o, (CostScaling.solve fuel p.exact alpha).outcome = .ok o →
          (o = .infeasible ↔ ¬ ∃ flow, p.exact.Feasible flow) ∧
          (o = .infeasible ∨ ∃ flow potential, o = .feasible flow potential ∧
            p.exact.Feasible flow ∧ p.exact.Certifies flow potential ∧ p.exact.Optimal flow) := by
  have hprepared := c.prepared_of_prepare hp
  constructor
  · exact (CostScaling.ends_solve hprepared alpha).exists_returns
  · intro fuel
    refine ⟨fun _ => CostScaling.solve_error, fun o h => ?_⟩
    rcases CostScaling.solve_correct hprepared h with
      ⟨flow, potential, rfl, hfeasible, hcertifies⟩ | ⟨rfl, hnone⟩
    · refine ⟨⟨fun heq => (by cases heq), fun hnone => absurd ⟨flow, hfeasible⟩ hnone⟩, Or.inr ?_⟩
      exact ⟨flow, potential, rfl, hfeasible, hcertifies, hcertifies.optimal hfeasible⟩
    · exact ⟨⟨fun _ => hnone, fun _ => rfl⟩, Or.inl rfl⟩

/-- Of two units, one takes the cheaper arc; cost scaling answers so with an alpha of two, which is
what an alpha of zero is read as. -/
theorem costScaling_correct_parallelArcs :
    letI := ExactCosts.ofWidth .bits128
    parallelArcs.prepare.outcome = .ok (some parallelProblem) ∧
      (CostScaling.solve 20 parallelProblem.exact 0).outcome =
        .ok (.feasible ⟨#v[1, 1]⟩ ⟨#v[-3, 0]⟩) ∧
      parallelProblem.exact.Optimal ⟨#v[1, 1]⟩ := by
  have hsolve :
      letI := ExactCosts.ofWidth .bits128
      (CostScaling.solve 20 parallelProblem.exact 0).outcome =
        .ok (.feasible ⟨#v[1, 1]⟩ ⟨#v[-3, 0]⟩) := by
    decide +kernel
  let _ := ExactCosts.ofWidth .bits128
  have hcorrect := (costScaling_correct prepare_parallelArcs 0).2 20
  rcases (hcorrect.2 _ hsolve).2 with heq | ⟨flow, potential, heq, -, -, hoptimal⟩
  · cases heq
  · cases heq
    exact ⟨prepare_parallelArcs, hsolve, hoptimal⟩

end NetworkFlow.Configuration
