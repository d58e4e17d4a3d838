import NetworkFlow.Proofs.CostScaling.Amounts

/-!
# What a refinement passes

A refinement may begin with any feasible flow, whatever the potentials are, and with any epsilon
that is one at least. `Passed` says which states it passes once the residual arcs are filled. All
of them are optimal up to epsilon, and as some flow is feasible, a node that holds an excess has a
residual arc with room in each of them. So a relabelling always finds a potential, and the search
does not end with a node that is stuck.

## Main results

* `passed_refine`: no other states are passed.
* `Passed.refining`: what all of them have in common.
* `refines`: a refinement ends, without a node that is stuck, and with what.
-/

namespace NetworkFlow.CostScaling

open scoped ExactCosts

variable {n m fuel : Nat}

section Run

variable {α : Type} [Scalar α] {p : Scaled n m α} {epsilon : α} {start s s' : State n m α}
  {u : Fin n}

/-- The states that a refinement passes once the residual arcs are filled. -/
inductive Passed (p : Scaled n m α) (epsilon : α) (start : State n m α) :
    Stage n m α → State n m α → Prop where
  | filled : Passed p epsilon start (.waiting epsilon)
      { (ResidualArc.all m).foldl (saturate p) start with current := .const n 0 }
  | take {s : State n m α} {u : Fin n} {rest : List (Fin n)}
      (h : Passed p epsilon start (.waiting epsilon) s) (hactive : s.active = u :: rest) :
      Passed p epsilon start (.discharging epsilon u) { s with active := rest }
  | step {s s' : State n m α} {u : Fin n} (h : Passed p epsilon start (.discharging epsilon u) s)
      (hstep : dischargeStep p epsilon u s = .next s') :
      Passed p epsilon start (.discharging epsilon u) s'
  | finish {s s' : State n m α} {u : Fin n} (h : Passed p epsilon start (.discharging epsilon u) s)
      (hstep : dischargeStep p epsilon u s = .done (some s')) :
      Passed p epsilon start (.waiting epsilon) s'

theorem passed_discharge (h : Passed p epsilon start (.discharging epsilon u) s)
    (hdischarge : discharge p fuel epsilon s u = .ok (some s')) :
    Passed p epsilon start (.waiting epsilon) s' := by
  refine iterate_invariant (P := Passed p epsilon start (.discharging epsilon u))
    (Q := fun o => ∀ s', o = some s' → Passed p epsilon start (.waiting epsilon) s')
    ?_ ?_ h hdischarge s' rfl
  · exact fun s₁ s₂ h₁ hstep => h₁.step (Scalar.checked_eq_ok.mp hstep).2
  · rintro s₁ o h₁ hstep s' rfl
    exact h₁.finish (Scalar.checked_eq_ok.mp hstep).2

/-- A refinement passes no other states, and ends when no node waits. -/
theorem passed_refine (hrefine : refine p fuel epsilon start = .ok (some s')) :
    Passed p epsilon start (.waiting epsilon) s' ∧ s'.active = [] := by
  refine iterate_invariant (P := Passed p epsilon start (.waiting epsilon))
    (Q := fun o => ∀ s', o = some s' →
      Passed p epsilon start (.waiting epsilon) s' ∧ s'.active = [])
    ?_ ?_ .filled (refine_eq_ok.mp hrefine).2 s' rfl
  · intro s₁ s₂ h₁ hstep
    rcases queueStep_cases hstep with
      ⟨-, ⟨⟩⟩ | ⟨u, rest, _, hactive, hdischarge, ⟨-, ⟨⟩⟩ | ⟨_, rfl, ⟨⟩⟩⟩
    exact passed_discharge (h₁.take hactive) hdischarge
  · rintro s₁ o h₁ hstep s' rfl
    rcases queueStep_cases hstep with
      ⟨hactive, ⟨⟩⟩ | ⟨_, _, _, -, -, ⟨-, ⟨⟩⟩ | ⟨_, -, ⟨⟩⟩⟩
    exact ⟨h₁, hactive⟩

end Run

section Exact

variable [ExactCosts] {p : Scaled n m Int} {epsilon : Int} {start s : State n m Int}
  {stage : Stage n m Int}

/-- Every state that is passed is optimal up to epsilon, and the nodes with an excess wait. -/
theorem Passed.refining (hrows : p.rows = p.toNetwork.rows) (hepsilon : 1 ≤ epsilon)
    (hstart : Settled p start) (h : Passed p epsilon start stage s) :
    Refining p epsilon start.potential s ∧ WaitsBut stage.Busy s := by
  have hfeasible : ∃ flow, p.Feasible flow := ⟨_, Problem.feasible_amounts.mp hstart.feasible⟩
  induction h with
  | filled => exact queued_filled hepsilon hstart.toSound hstart.waits
  | take _ hactive ih => exact Queued.pop ih hactive
  | step _ hstep ih =>
      rcases dischargeStep_spec hrows ih.1 hepsilon hfeasible ih.2 with
        ⟨s', heq, hrefining, hwaits, -⟩ | ⟨heq, -⟩
      · rw [heq] at hstep
        cases hstep
        exact ⟨hrefining, hwaits⟩
      · rw [heq] at hstep
        cases hstep
  | finish _ hstep ih =>
      obtain ⟨rfl, hle⟩ := dischargeStep_done hstep
      exact ⟨ih.1, WaitsBut.discharged ih.2 hle⟩

end Exact

section Refinement

variable [ExactCosts] {p : Problem n m Int} {start : State n m Int} {epsilon : Int}

omit [ExactCosts] in
/-- A refinement may begin with any feasible flow, whatever the potentials are. -/
theorem settled_of_feasible (scaledCost : Table Int m) (hflow : p.Feasible start.flow)
    (hexcess : ∀ v : Fin n, start.excess[v] = 0) : Settled (scaled p scaledCost) start := by
  refine ⟨⟨hflow.within, fun v => ?_⟩, hexcess⟩
  rw [hexcess, zero_add]
  exact hflow.balanced v

/-- In exact arithmetic, for any scaled costs, potentials and current arcs, any epsilon that is one
at least and any feasible flow:

* every state that the refinement passes is optimal up to epsilon, and each node that holds an
  excess there has a residual arc with room;
* the refinement ends, always with the same state, in which no node holds an excess or a deficit,
  the flow is feasible, and no residual arc with room has a reduced cost below `-epsilon`;
* cost scaling does not find in any of its phases that the problem is infeasible. -/
theorem refines (scaledCost : Table Int m) (hflow : p.Feasible start.flow)
    (hexcess : ∀ v : Fin n, start.excess[v] = 0) (hepsilon : 1 ≤ epsilon) :
    (∀ stage s, Passed (scaled p scaledCost) epsilon start stage s →
      (∀ r, 0 < p.room s.flow r → -epsilon ≤ p.reduced scaledCost s.potential r) ∧
        ∀ u : Fin n, 0 < s.excess[u] → ∃ r, p.source r = u ∧ 0 < p.room s.flow r) ∧
    (∃ s, (∃ fuel, refine (scaled p scaledCost) fuel epsilon start = .ok (some s)) ∧
      (∀ fuel o, refine (scaled p scaledCost) fuel epsilon start = .ok o → o = some s) ∧
      (∀ v : Fin n, s.excess[v] = 0) ∧ p.Feasible s.flow ∧
      ∀ r, 0 < p.room s.flow r → -epsilon ≤ p.reduced scaledCost s.potential r) ∧
    ∀ fuel alpha, (scaledFlow fuel p alpha start.flow).outcome ≠ .ok none := by
  have hstart := settled_of_feasible scaledCost hflow hexcess
  have hpassed : ∀ {stage s}, Passed (scaled p scaledCost) epsilon start stage s →
      Refining (scaled p scaledCost) epsilon start.potential s :=
    fun h => (h.refining rfl hepsilon hstart).1
  refine ⟨fun stage s h => ⟨(hpassed h).optimal, fun u hu => ?_⟩, ?_, fun fuel alpha h => ?_⟩
  · exact (hpassed h).toSound.exists_open ⟨_, hflow⟩ hu
  · obtain ⟨fuel, o, hrefine⟩ :=
      exists_refine (p := scaled p scaledCost) rfl hepsilon ⟨_, hflow⟩ hstart.toSound hstart.waits
    obtain ⟨s, rfl, hsound, hzero, -⟩ :=
      refine_spec (p := scaled p scaledCost) rfl hepsilon ⟨_, hflow⟩ hstart.toSound hstart.waits
        hrefine
    have hfeasible : p.Feasible s.flow :=
      Problem.feasible_amounts.mp (Settled.feasible (p := scaled p scaledCost) ⟨hsound, hzero⟩)
    refine ⟨s, ⟨fuel, hrefine⟩, fun fuel' o hrefine' => ?_, hzero, hfeasible,
      (hpassed (passed_refine hrefine).1).optimal⟩
    -- more fuel changes no result, so there is only one
    have h₁ := (refine_mono (Nat.le_add_right fuel fuel') start).eq_ok hrefine
    have h₂ := (refine_mono (Nat.le_add_left fuel' fuel) start).eq_ok hrefine'
    exact Except.ok.inj (h₂.symm.trans h₁)
  · obtain ⟨flow', heq, -⟩ := scaledFlow_spec hflow h
    cases heq

end Refinement

/-- Both units on the dearer arc of `parallelProblem`, with potentials that no refinement has left. -/
def dearState : State 2 2 Int where
  flow := ⟨#v[0, 2]⟩
  potential := ⟨#v[0, 7]⟩
  excess := .const 2 0
  current := ⟨#v[1, 0]⟩
  active := []

/-- From `dearState`, a refinement moves one unit to the cheaper arc. -/
theorem refines_dearState :
    letI := ExactCosts.ofWidth .bits128
    let p := Configuration.parallelProblem.exact
    p.Feasible dearState.flow ∧ (∀ v : Fin 2, dearState.excess[v] = 0) ∧
      ∃ s, refine (scaled p ⟨#v[3, 9]⟩) 9 1 dearState = .ok (some s) ∧ s.flow = ⟨#v[1, 1]⟩ ∧
        s.potential = ⟨#v[-3, 7]⟩ ∧
        ∀ r, 0 < p.room s.flow r → -1 ≤ p.reduced ⟨#v[3, 9]⟩ s.potential r := by
  have hfeasible : Configuration.parallelProblem.exact.Feasible dearState.flow := by
    with_unfolding_all decide
  have hexcess : ∀ v : Fin 2, dearState.excess[v] = 0 := by with_unfolding_all decide
  have hrefine :
      letI := ExactCosts.ofWidth .bits128
      refine (scaled Configuration.parallelProblem.exact ⟨#v[3, 9]⟩) 9 1 dearState = .ok (some
        { flow := ⟨#v[1, 1]⟩, potential := ⟨#v[-3, 7]⟩, excess := ⟨#v[0, 0]⟩
          current := ⟨#v[1, 0]⟩, active := [] }) := by
    with_unfolding_all rfl
  let _ := ExactCosts.ofWidth .bits128
  obtain ⟨-, ⟨s, -, hunique, -, -, hoptimal⟩, -⟩ :=
    refines (p := Configuration.parallelProblem.exact) ⟨#v[3, 9]⟩ hfeasible hexcess le_rfl
  obtain rfl := Option.some.inj (hunique 9 _ hrefine)
  exact ⟨hfeasible, hexcess, _, hrefine, rfl, rfl, hoptimal⟩

end NetworkFlow.CostScaling
