import NetworkFlow.Proofs.CapacityScaling.Optimal
import NetworkFlow.Proofs.Configured
import NetworkFlow.Proofs.CostScaling.Optimal
import NetworkFlow.Proofs.NetworkSimplex.Optimal
import NetworkFlow.Solver

/-!
# What a run reports

A run that finds an optimum has an exact flow of the configured problem in hand: whatever
the costs are computed in, the engine's flow is feasible for the finite problem, so with
the lower bounds added to it it meets the configured bounds and supplies. What the queries
answer is that flow narrowed to the caller's flow type, to the nearest value of the
type. On arcs with an upper bound nothing is lost; an arc without one may carry more
than the type holds.

## Main results

* `Method.solve_feasible`: the flow of a feasible answer is feasible.
* `optimal_of_answers`: what an optimal answer has been made of.
* `flows_nearest`: the reported flows are nearest to a flow that meets bounds and supplies.
-/

namespace NetworkFlow

/-- An integer in the range of a flow type and in the range of amounts. -/
def Reportable (w : Width) (x : Int) : Prop := w.Fits x ∧ Width.bits64.Fits x

section Reportable

variable {w : Width} {x y z : Int}

theorem Reportable.between (hx : Reportable w x) (hz : Reportable w z) (hxy : x ≤ y)
    (hyz : y ≤ z) : Reportable w y := by
  unfold Reportable Width.Fits at *
  omega

theorem reportable_zero (w : Width) : Reportable w 0 :=
  ⟨w.fits_zero, Width.bits64.fits_zero⟩

/-- A value of the flow type stands for an amount that can be reported. -/
theorem reportable_ofWord (x : Word w) : Reportable w (Amount.ofWord x) := by
  by_cases hfits : Width.bits64.Fits x.val
  · have hval : Amount.ofWord x = x.val := by
      rw [Amount.ofWord, Word.clamp_of_fits hfits]
    rw [hval]
    exact ⟨x.fits, hfits⟩
  · -- only the widest type has values that are no amounts
    have hwide : Width.bits64.half ≤ w.half := by
      by_contra hlt
      have := x.fits
      unfold Width.Fits at hfits this
      omega
    have hamount := (Word.clamp x.val : Word .bits64).fits
    refine ⟨?_, hamount⟩
    unfold Amount.ofWord
    unfold Width.Fits at hamount ⊢
    omega

/-- A value of a flow type that is no wider than amounts stands for itself. -/
theorem Amount.ofWord_eq (hw : w ≠ .bits128) (x : Word w) : Amount.ofWord x = x.val := by
  have hfits : Width.bits64.Fits x.val := by
    have := x.fits
    cases w with
    | bits32 => exact Width.fits_wider this
    | bits64 => exact this
    | bits128 => exact absurd rfl hw
  rw [Amount.ofWord, Word.clamp_of_fits hfits]

end Reportable

section Methods

variable {n m : Nat} {α : Type} [Scalar α] {p : Problem n m α}

/-- Whatever the costs are computed in, the flow of a feasible answer is feasible. -/
theorem Method.solve_feasible (hp : p.amounts.Prepared) {method : Method} {fuel : Nat}
    {flow : Table Int m} {potential : Table α n}
    (h : (method.solve fuel p).outcome = .ok (.feasible flow potential)) :
    p.amounts.Feasible flow := by
  cases method with
  | networkSimplex rule => exact NetworkSimplex.solve_feasible hp h
  | costScaling alpha => exact CostScaling.solve_feasible hp h
  | capacityScaling factor => exact CapacityScaling.solve_feasible hp h

end Methods

namespace Configuration

variable {w : Width} {α : Type} (c : Configuration w α)

theorem reportable_lowerAt (a : Fin c.arcs) : Reportable w (c.lowerAt a) := by
  unfold lowerAt
  split
  · exact reportable_zero w
  · exact reportable_ofWord _

theorem reportable_upperAt {a : Fin c.arcs} {upper : Int} (h : c.upperAt a = some upper) :
    Reportable w upper := by
  obtain ⟨map, -, h⟩ := Option.bind_eq_some_iff.mp h
  unfold Amount.capacity? at h
  split at h
  · cases h
  · cases h
    exact reportable_ofWord _

variable {c}

/-- A flow that meets the bounds can be reported on every arc with an upper bound. -/
theorem Meets.reportable {flow : Table Int c.arcs} (h : c.Meets flow) {a : Fin c.arcs}
    {upper : Int} (hupper : c.upperAt a = some upper) : Reportable w flow[a] :=
  (c.reportable_lowerAt a).between (c.reportable_upperAt hupper) (h.lower_le a)
    (h.le_upper a upper hupper)

/-- The narrowed sum of bound and flow is the sum, if the flow type holds it. -/
theorem val_restoreFlow {lower flow : Int} (h : w.Fits (flow + lower)) :
    (restoreFlow lower flow : Word w).val = flow + lower := by
  rw [restoreFlow, Amount.toWord, Word.clamp_of_fits h]

/-- If the narrowed sum of bound and flow is below the largest value of the type, it is the sum:
what is too large becomes the largest value, and nothing is below the bound. -/
theorem val_restoreFlow_of_lt {lower flow : Int} (hlower : Reportable w lower) (hpos : 0 ≤ flow)
    (hhi : (restoreFlow lower flow : Word w).val < (Word.largest w).val) :
    (restoreFlow lower flow : Word w).val = flow + lower := by
  obtain ⟨⟨hw, hw'⟩, -⟩ := hlower
  by_cases hfits : w.Fits (flow + lower)
  · exact val_restoreFlow hfits
  · have hlarge : ¬ flow + lower < 0 := fun hneg => hfits ⟨by omega, by omega⟩
    simp [restoreFlow, Amount.toWord, Word.clamp, hfits, hlarge] at hhi

/-- What a feasible answer is translated to has a verdict that only depends on the problem. -/
theorem verdict_of_translate [Cost α] {n m : Nat} {p : Problem n m (Cost.Wide α)}
    {flow : Table Int m} {potential : Table (Cost.Wide α) n} {solution : Solution w α}
    (h : translate p (.feasible flow potential) = .ok solution) :
    solution.verdict = if p.unbounded then .unbounded else .optimal := by
  simp only [translate] at h
  split at h
  · cases h
    simp [Solution.verdict, *]
  · split at h <;> cases h
    simp [Solution.verdict, *]

section Prepared

variable [Cost α] {p : Problem c.nodes c.arcs (Cost.Wide α)}

theorem lower_of_prepare (h : c.prepare.outcome = .ok (some p)) (a : Fin c.arcs) :
    p.lower[a] = c.lowerAt a := by
  obtain ⟨_, _, _, -, -, -, -, -, rfl⟩ := c.prepare_eq_some h
  simp [toProblem]

variable (c) in
/-- No flow on an arc without an upper bound has been cut to the largest value of its type. -/
def Uncut (flows : Fin c.arcs → Word w) : Prop :=
  ∀ a : Fin c.arcs, c.upperAt a = none → (flows a).val < (Word.largest w).val

/-- An optimal solution is made of a finite problem without an unbounded cycle and of an engine's
feasible answer to it, to which the lower bounds can be added. -/
theorem feasible_of_solve {c : Configuration w α} {fuel : Nat} {method : Method}
    {flows : Array (Word w)} {potentials : Array α}
    (h : (c.solve fuel method).outcome = .ok (.optimal flows potentials)) :
    ∃ p flow potential, c.prepare.outcome = .ok (some p) ∧ p.unbounded = false ∧
      (method.solve fuel p).outcome = .ok (.feasible flow potential) ∧
      (∀ a : Fin c.arcs, Width.bits64.Fits (flow[a] + p.lower[a])) ∧
      flows = (Array.ofFn fun a : Fin c.arcs => restoreFlow p.lower[a] flow[a]) ∧
      potentials = Array.ofFn fun v : Fin c.nodes => Cost.narrow potential[v] := by
  obtain ⟨prepared, hprepare, h⟩ := Logged.outcome_bind_eq_ok.mp h
  cases prepared with
  | none => cases h
  | some p =>
      obtain ⟨outcome, hengine, h⟩ := Logged.outcome_bind_eq_ok.mp h
      obtain ⟨flow, potential, rfl, hflag, hfits, hflows, hpotentials⟩ :=
        translate_eq_optimal (Logged.outcome_ofRun_eq_ok.mp h)
      exact ⟨p, flow, potential, hprepare, hflag, hengine, hfits, hflows, hpotentials⟩

/-- A flow that has not been cut is that of the engine, with the lower bound added. -/
theorem val_restoreFlow_of_uncut (h : c.prepare.outcome = .ok (some p)) {flow : Table Int c.arcs}
    (hflow : p.amounts.Feasible flow) {a : Fin c.arcs}
    (huncut : c.upperAt a = none →
      (restoreFlow p.lower[a] flow[a] : Word w).val < (Word.largest w).val) :
    (restoreFlow p.lower[a] flow[a] : Word w).val = flow[a] + c.lowerAt a := by
  rw [lower_of_prepare h] at huncut ⊢
  cases hupper : c.upperAt a with
  | none => exact val_restoreFlow_of_lt (c.reportable_lowerAt a) (hflow.within a).1 (huncut hupper)
  | some upper =>
      have hmeets : c.Meets (c.raise flow) := (admits_iff_meets h flow).mp hflow.admits
      have hreportable := hmeets.reportable hupper
      rw [getElem_raise] at hreportable
      exact val_restoreFlow hreportable.1

end Prepared

end Configuration

namespace Solver

variable {w : Width} {α : Type}

/-- A solver answers the queries with given flows and potentials, which are the solution of a run of
a solver with the same graph. -/
structure Reports (s s' : Solver w α) (flows : Fin s.config.arcs → Word w)
    (potentials : Fin s.config.nodes → α) : Prop where
  solution_eq : s'.solution = some (.optimal (Array.ofFn flows) (Array.ofFn potentials))
  flow_eq : ∀ a : Fin s.config.arcs, s'.flow ⟨s.config.graph.id, a⟩ = .ok (flows a)
  potential_eq : ∀ v : Fin s.config.nodes, s'.potential ⟨s.config.graph.id, v⟩ = .ok (potentials v)

/-- The queries answer from the solution. -/
theorem reports_solution (s : Solver w α) (flows : Fin s.config.arcs → Word w)
    (potentials : Fin s.config.nodes → α) :
    s.Reports { s with solution := some (.optimal (Array.ofFn flows) (Array.ofFn potentials)) }
      flows potentials where
  solution_eq := rfl
  flow_eq a := by
    unfold flow
    refine bind_eq_ok.mpr ⟨a, s.config.graph.check_eq_ok.mpr rfl, ?_⟩
    refine bind_eq_ok.mpr ⟨(Array.ofFn flows, Array.ofFn potentials), rfl, ?_⟩
    simp [elementAt]
  potential_eq v := by
    unfold potential
    refine bind_eq_ok.mpr ⟨v, s.config.graph.check_eq_ok.mpr rfl, ?_⟩
    refine bind_eq_ok.mpr ⟨(Array.ofFn flows, Array.ofFn potentials), rfl, ?_⟩
    simp [elementAt]

variable [Cost α] {s s' : Solver w α} {fuel : Nat} {verdict : Verdict}

/-- A run of a solver returns a verdict and leaves a solver to be queried. -/
def Answers (s : Solver w α) (fuel : Nat) (verdict : Verdict) (s' : Solver w α) : Prop :=
  ((run fuel).run s).1.outcome = .ok verdict ∧ ((run fuel).run s).2 = s'

/-- A run solves the configured problem and keeps the solution. -/
theorem run_eq (s : Solver w α) (fuel : Nat) :
    (run fuel).run s = match s.config.solve fuel s.method with
      | ⟨events, .ok solution⟩ =>
          (⟨events ++ [.solved s.algorithm solution.verdict s.config.nodes s.config.arcs],
            .ok solution.verdict⟩, { s with solution := some solution })
      | ⟨events, .error fault⟩ => (⟨events, .error fault⟩, { s with solution := none }) := by
  have hrun : (run fuel).run s =
      ((do
        let solution ← (Action.ofLogged (s.config.solve fuel s.method) : Action (Solver w α) _)
        Action.report (.solved s.algorithm solution.verdict s.config.nodes s.config.arcs)
        set { s with solution := some solution }
        return solution.verdict : Action (Solver w α) Verdict)).run { s with solution := none } := rfl
  rw [hrun, Action.run_bind, Action.run_ofLogged]
  obtain ⟨events, fault | solution⟩ := s.config.solve fuel s.method
  · rfl
  · rfl

theorem outcome_run (s : Solver w α) (fuel : Nat) :
    ((run fuel).run s).1.outcome =
      (s.config.solve fuel s.method).outcome.map (·.verdict) := by
  rw [run_eq]
  obtain ⟨events, fault | solution⟩ := s.config.solve fuel s.method
  · rfl
  · rfl

theorem answers_iff : s.Answers fuel verdict s' ↔
    ∃ solution, (s.config.solve fuel s.method).outcome = .ok solution ∧
      solution.verdict = verdict ∧ s' = { s with solution := some solution } := by
  unfold Answers
  rw [run_eq]
  obtain ⟨events, fault | solution⟩ := s.config.solve fuel s.method
  · simp
  · simp [eq_comm]

/-- An optimal answer is made of a finite problem without an unbounded cycle and of an engine's
feasible answer to it, to which the lower bounds can be added. -/
theorem optimal_of_answers (h : s.Answers fuel .optimal s') :
    ∃ p flow potential, s.config.prepare.outcome = .ok (some p) ∧ p.unbounded = false ∧
      (s.method.solve fuel p).outcome = .ok (.feasible flow potential) ∧
      (∀ a : Fin s.config.arcs, Width.bits64.Fits (flow[a] + p.lower[a])) ∧
      s.Reports s' (fun a => Configuration.restoreFlow p.lower[a] flow[a])
        fun v => Cost.narrow potential[v] := by
  obtain ⟨solution, hsolve, hverdict, rfl⟩ := answers_iff.mp h
  cases solution with
  | infeasible => cases hverdict
  | unbounded => cases hverdict
  | optimal flows potentials =>
      obtain ⟨p, flow, potential, hprepare, hflag, hengine, hfits, rfl, rfl⟩ :=
        Configuration.feasible_of_solve hsolve
      exact ⟨p, flow, potential, hprepare, hflag, hengine, hfits, reports_solution s _ _⟩

omit [Cost α] in
/-- The queries have one answer. -/
theorem Reports.unique {flows flows' : Fin s.config.arcs → Word w}
    {potentials potentials' : Fin s.config.nodes → α} (h : s.Reports s' flows potentials)
    (h' : s.Reports s' flows' potentials') : flows = flows' ∧ potentials = potentials' :=
  ⟨funext fun a => Except.ok.inj ((h.flow_eq a).symm.trans (h'.flow_eq a)),
    funext fun v => Except.ok.inj ((h.potential_eq v).symm.trans (h'.potential_eq v))⟩

/-- A feasible answer of an engine makes an optimal one, unless there is an unbounded cycle or a sum
with a lower bound leaves the range of amounts. -/
theorem answers_of_feasible {p : Problem s.config.nodes s.config.arcs (Cost.Wide α)}
    {flow : Table Int s.config.arcs} {potential : Table (Cost.Wide α) s.config.nodes}
    (hprepare : s.config.prepare.outcome = .ok (some p)) (hflag : p.unbounded = false)
    (hengine : (s.method.solve fuel p).outcome = .ok (.feasible flow potential))
    (hfits : ∀ a : Fin s.config.arcs, Width.bits64.Fits (flow[a] + p.lower[a])) :
    s.Answers fuel .optimal
      { s with
        solution := some (.optimal
          (Array.ofFn fun a : Fin s.config.arcs => Configuration.restoreFlow p.lower[a] flow[a])
          (Array.ofFn fun v : Fin s.config.nodes => Cost.narrow potential[v])) } := by
  refine answers_iff.mpr ⟨_, ?_, rfl, rfl⟩
  refine Logged.outcome_bind_eq_ok.mpr ⟨some p, hprepare, ?_⟩
  refine Logged.outcome_bind_eq_ok.mpr ⟨.feasible flow potential, hengine, ?_⟩
  refine Logged.outcome_ofRun_eq_ok.mpr ?_
  simp [Configuration.translate, hflag, hfits]

/-- A run that finds an optimum reports the values of the flow type that are nearest to a flow of
amounts that meets the configured bounds and supplies. On arcs with an upper bound it reports that
very flow; if it does so on the other arcs, too, because the type holds what they carry, what is
reported meets bounds and supplies. -/
theorem flows_nearest (h : s.Answers fuel .optimal s') :
    ∃ flows potentials, s.Reports s' flows potentials ∧
      ∃ x : Table Int s.config.arcs, s.config.Meets x ∧
        (∀ a : Fin s.config.arcs, Width.bits64.Fits x[a] ∧ flows a = .clamp x[a]) ∧
        (∀ (a : Fin s.config.arcs) upper, s.config.upperAt a = some upper →
          (flows a).val = x[a]) ∧
        ((∀ a : Fin s.config.arcs, s.config.upperAt a = none → w.Fits x[a]) →
          s.config.Meets (.ofFn fun a => (flows a).val)) := by
  obtain ⟨p, flow, potential, hprepare, -, hengine, hfits, hreports⟩ := optimal_of_answers h
  have hfeasible := Method.solve_feasible (s.config.prepared_amounts hprepare) hengine
  have hmeets : s.config.Meets (s.config.raise flow) :=
    (Configuration.admits_iff_meets hprepare flow).mp hfeasible.admits
  have hsum : ∀ a : Fin s.config.arcs, flow[a] + p.lower[a] = (s.config.raise flow)[a] := by
    intro a
    rw [Configuration.getElem_raise, Configuration.lower_of_prepare hprepare]
  have hexact : ∀ a : Fin s.config.arcs, w.Fits (s.config.raise flow)[a] →
      (Configuration.restoreFlow p.lower[a] flow[a] : Word w).val = (s.config.raise flow)[a] := by
    intro a ha
    rw [← hsum] at ha ⊢
    exact Configuration.val_restoreFlow ha
  refine ⟨_, _, hreports, s.config.raise flow, hmeets, fun a => ?_,
    fun a upper hupper => hexact a (hmeets.reportable hupper).1, fun hroom => ?_⟩
  · rw [← hsum]
    exact ⟨hfits a, rfl⟩
  · have hall : (Table.ofFn fun a : Fin s.config.arcs =>
        (Configuration.restoreFlow p.lower[a] flow[a] : Word w).val) = s.config.raise flow := by
      apply Table.ext
      intro a
      rw [Table.getElem_ofFn]
      cases hupper : s.config.upperAt a with
      | none => exact hexact a (hroom a hupper)
      | some upper => exact hexact a (hmeets.reportable hupper).1
    rw [hall]
    exact hmeets

/-- Two arcs without an upper bound that earn one for each unit, and two arcs back that can carry two
thousand million units each. -/
def roundTrip : Configuration .bits32 (Word .bits64) where
  graph :=
    { id := ⟨0⟩, nodeCount := 2, ends := #[⟨0, 1⟩, ⟨0, 1⟩, ⟨1, 0⟩, ⟨1, 0⟩], below := by decide }
  upper := some
    { graph := ⟨0⟩
      values := #[.largest .bits32, .largest .bits32, ⟨2000000000, by decide⟩,
        ⟨2000000000, by decide⟩]
      fill := default }
  cost := some
    { graph := ⟨0⟩
      values := #[.clamp (-1), .clamp (-1), .clamp 0, .clamp 0]
      fill := default }

/-- The finite problem of `roundTrip`. -/
def roundTripProblem : Problem 2 4 (Word .bits128) := roundTrip.toProblem ⟨#v[0, 0]⟩ 4000000000

/-- A solver of `roundTrip`. -/
def roundTripSolver : Solver .bits32 (Word .bits64) where
  config := roundTrip
  method := .capacityScaling 0

/-- What a run of `roundTripSolver` leaves. -/
def roundTripSolved : Solver .bits32 (Word .bits64) :=
  let flow : Table Int 4 := ⟨#v[0, 4000000000, 2000000000, 2000000000]⟩
  let potential : Table (Word .bits128) 2 := ⟨#v[⟨0, by decide⟩, ⟨-1, by decide⟩]⟩
  { roundTripSolver with
    solution := some (.optimal
      (Array.ofFn fun a : Fin 4 => Configuration.restoreFlow roundTripProblem.lower[a] flow[a])
      (Array.ofFn fun v : Fin 2 => Cost.narrow potential[v])) }

/-- All that the arcs back can carry takes one of the two other arcs. -/
theorem answers_roundTrip : roundTripSolver.Answers 9 .optimal roundTripSolved := by
  have hprepare : roundTrip.prepare.outcome = .ok (some roundTripProblem) := by
    with_unfolding_all rfl
  have hflag : roundTripProblem.unbounded = false := by
    with_unfolding_all rfl
  have hengine : (CapacityScaling.solve 9 roundTripProblem 0).outcome =
      .ok (.feasible ⟨#v[0, 4000000000, 2000000000, 2000000000]⟩
        ⟨#v[⟨0, by decide⟩, ⟨-1, by decide⟩]⟩) := by
    set_option maxRecDepth 4000 in with_unfolding_all rfl
  exact answers_of_feasible (s := roundTripSolver) hprepare hflag hengine
    (by with_unfolding_all decide)

/-- The values reported are nearest to a flow that meets the bounds. -/
theorem flows_nearest_roundTrip :
    roundTripSolver.Answers 9 .optimal roundTripSolved ∧
      ∃ x : Table Int 4, roundTrip.Meets x ∧
        ∀ a : Fin 4, roundTripSolved.flow ⟨⟨0⟩, a⟩ = .ok (.clamp x[a]) := by
  obtain ⟨flows, _, hreports, x, hmeets, hnearest, -⟩ := flows_nearest answers_roundTrip
  refine ⟨answers_roundTrip, x, hmeets, fun a => ?_⟩
  exact (hreports.flow_eq a).trans (congrArg Except.ok (hnearest a).2)

/-- The arc that takes everything is reported with the largest value of the flow type, and the
balances are wrong. -/
theorem roundTrip_clipped :
    roundTripSolver.Answers 9 .optimal roundTripSolved ∧
      ∃ flows : Fin 4 → Word .bits32,
        (∀ a : Fin 4, roundTripSolved.flow ⟨⟨0⟩, a⟩ = .ok (flows a)) ∧
        ¬ roundTrip.Meets (.ofFn fun a => (flows a).val) := by
  refine ⟨answers_roundTrip, _, (reports_solution roundTripSolver _ _).flow_eq, fun hmeets => ?_⟩
  have hbalance := hmeets.balanced ⟨0, Nat.two_pos⟩
  revert hbalance
  with_unfolding_all decide

end Solver

end NetworkFlow
