import NetworkFlow.Proofs.Methods

/-!
# The methods agree

What a run that returns finds out about a modest problem does not depend on the method. A refusal
before the finite problem is made is the same for all methods, and the engines themselves refuse
only a demand that is no amount. Their verdicts are right, so they are the same, and the flows they
report cost the same, as all of them are optimal for the finite problem.

A demand that is no amount needs more than four sources, since no supply is above a quarter of the
largest amount. Only cost scaling adds the supplies up.

## Main results

* `verdict_eq_of_isAnswer`: right answers have one verdict.
* `totalCost_of_reports`: what a run reports costs the least.
* `runs_agree`: two runs of different methods end in the same way.
-/

namespace NetworkFlow

open Finset

namespace Problem

variable {n m : Nat} {β : Type} {p : Problem n m Int}

/-- The cost of a finite problem has a lower bound. -/
theorem not_isAnswer_unbounded : ¬ p.IsAnswer (.unbounded : Outcome n m β) := by
  rintro ⟨hfeasible, hunbounded⟩
  obtain ⟨flow, -, hleast⟩ := exists_optimal hfeasible
  obtain ⟨other, hother, hless⟩ := hunbounded (p.totalCost flow)
  exact absurd (hleast other hother) (not_le.mpr hless)

end Problem

namespace Configuration

variable {w cw : Width} {c : Configuration w (Word cw)}
  {p : Problem c.nodes c.arcs (Cost.Wide (Word cw))}

/-- What an answer to a finite problem is translated to has a verdict that only depends on the
problem and on whether the answer is feasible. -/
theorem verdict_eq_of_isAnswer {o o' : Outcome c.nodes c.arcs (Cost.Wide (Word cw))}
    {solution solution' : Solution w (Word cw)} (h : p.exact.IsAnswer o)
    (h' : p.exact.IsAnswer o') (htranslate : translate p o = .ok solution)
    (htranslate' : translate p o' = .ok solution') : solution.verdict = solution'.verdict := by
  cases o with
  | unbounded => exact absurd h Problem.not_isAnswer_unbounded
  | infeasible =>
      cases htranslate
      cases o' with
      | unbounded => exact absurd h' Problem.not_isAnswer_unbounded
      | infeasible =>
          cases htranslate'
          rfl
      | feasible flow potential => exact absurd ⟨flow, h'⟩ h
  | feasible flow potential =>
      cases o' with
      | unbounded => exact absurd h' Problem.not_isAnswer_unbounded
      | infeasible => exact absurd ⟨flow, h⟩ h'
      | feasible flow' potential' =>
          rw [verdict_of_translate htranslate, verdict_of_translate htranslate']

variable (c) in
/-- If a finite problem is made, its demand is an amount. -/
def DemandCounted : Prop :=
  ∀ p, c.prepare.outcome = .ok (some p) → ∑ v : Fin c.nodes, max p.supply[v] 0 ≤ Amount.largest

section Verdicts

variable {method method' : Method} {fuel fuel' : Nat}

theorem outcome_solve_of_error {fault : Fault} (h : c.prepare.outcome = .error fault) :
    (c.solve fuel method).outcome = .error fault := by
  rw [solve, Logged.outcome_bind, h]
  rfl

theorem outcome_solve_of_none (h : c.prepare.outcome = .ok none) :
    (c.solve fuel method).outcome = .ok .infeasible := by
  rw [solve, Logged.outcome_bind, h]
  rfl

/-- How a run on a modest problem that returns ends has nothing to do with the method. -/
theorem solve_agree (hmodest : c.Modest) (hdemand : c.DemandCounted)
    (h : (c.solve fuel method).Returns) (h' : (c.solve fuel' method').Returns) :
    (c.solve fuel method).outcome.map (·.verdict) =
      (c.solve fuel' method').outcome.map (·.verdict) := by
  cases hp : c.prepare.outcome with
  | error fault => rw [outcome_solve_of_error hp, outcome_solve_of_error hp]
  | ok prepared =>
      cases prepared with
      | none => rw [outcome_solve_of_none hp, outcome_solve_of_none hp]
      | some p =>
          -- no engine refuses anything, so each run has an answer that can be translated
          have hanswer : ∀ {fuel method}, (c.solve fuel method).Returns →
              ∃ o solution, p.exact.IsAnswer o ∧ translate p o = .ok solution ∧
                (c.solve fuel method).outcome = .ok solution := by
            intro fuel method hreturns
            have hengine : (method.solve fuel p >>= fun o => Logged.ofRun (translate p o)).Returns :=
              hreturns.right hp
            obtain ⟨o, ho⟩ :=
              hengine.left.exists_ok (hmodest.refuses_nothing hp fun _ => hdemand p hp)
            obtain ⟨solution, hsolution⟩ :=
              (hengine.right ho).exists_ok (Logged.refusesOnly_ofRun _)
            exact ⟨o, solution,
              Method.isAnswer (c.prepared_of_prepare hp) hmodest.nodesCounted ho,
              Logged.outcome_ofRun_eq_ok.mp hsolution,
              Logged.outcome_bind_eq_ok.mpr
                ⟨some p, hp, Logged.outcome_bind_eq_ok.mpr ⟨o, ho, hsolution⟩⟩⟩
          obtain ⟨o, solution, ho, htranslate, hsolve⟩ := hanswer h
          obtain ⟨o', solution', ho', htranslate', hsolve'⟩ := hanswer h'
          rw [hsolve, hsolve']
          exact congrArg Except.ok (verdict_eq_of_isAnswer ho ho' htranslate htranslate')

end Verdicts

end Configuration

namespace Solver

variable {w cw : Width} {s s' : Solver w (Word cw)} {fuel : Nat}
  {p : Problem s.config.nodes s.config.arcs (Cost.Wide (Word cw))}

/-- The flows that an optimal answer reports cost, unless some have been cut, the least that is
possible, and the lower bounds. -/
theorem totalCost_of_reports (hcount : s.config.NodesCounted) (h : s.Answers fuel .optimal s')
    {flows : Fin s.config.arcs → Word w} {potentials : Fin s.config.nodes → Word cw}
    (hreports : s.Reports s' flows potentials) (huncut : s.config.Uncut flows) :
    ∃ p flow, s.config.prepare.outcome = .ok (some p) ∧ p.exact.Optimal flow ∧
      s.config.totalCost (.ofFn fun a => (flows a).val) = s.config.totalCost (s.config.raise flow) := by
  obtain ⟨p, flow, potential, hp, -, hengine, -, hreports'⟩ := optimal_of_answers h
  obtain ⟨rfl, -⟩ := hreports.unique hreports'
  have hprepared := s.config.prepared_of_prepare hp
  have hfeasible := Method.solve_feasible (p := p) hprepared.amounts hengine
  have hcertifies := Method.certifies hprepared hcount hengine
  refine ⟨p, flow, hp, hcertifies.optimal (Problem.feasible_amounts.mp hfeasible), ?_⟩
  congr 1
  apply Table.ext
  intro a
  rw [Table.getElem_ofFn, Configuration.getElem_raise]
  exact Configuration.val_restoreFlow_of_uncut hp hfeasible (huncut a)

/-- Whatever the graph, the bounds, the costs and the supplies are, two runs of different methods
that return end with the same verdict or are refused for the same cause, as long as the problem is
modest and its demand an amount; and if they find an optimum, the flows that they report, unless
some have been cut to the flow type, cost the same. -/
theorem runs_agree (s : Solver w (Word cw)) (method : Method) (fuel fuel' : Nat)
    (hmodest : s.config.Modest) (hdemand : s.config.DemandCounted)
    (hreturn : ((run fuel).run s).1.Returns)
    (hreturn' : ((run fuel').run (s.setMethod method)).1.Returns) :
    ((run fuel).run s).1.outcome = ((run fuel').run (s.setMethod method)).1.outcome ∧
      ∀ s₁ s₂ flows₁ flows₂ potentials₁ potentials₂,
        s.Answers fuel .optimal s₁ → s.Reports s₁ flows₁ potentials₁ → s.config.Uncut flows₁ →
        (s.setMethod method).Answers fuel' .optimal s₂ →
        (s.setMethod method).Reports s₂ flows₂ potentials₂ → s.config.Uncut flows₂ →
        s.config.totalCost (.ofFn fun a => (flows₁ a).val) =
          s.config.totalCost (.ofFn fun a => (flows₂ a).val) := by
  have hsolve : ∀ {s : Solver w (Word cw)} {fuel}, ((run fuel).run s).1.Returns →
      (s.config.solve fuel s.method).Returns := by
    intro s fuel hrun why heq
    refine hrun why ?_
    rw [outcome_run, heq]
    rfl
  constructor
  · rw [outcome_run, outcome_run]
    exact Configuration.solve_agree hmodest hdemand (hsolve hreturn) (hsolve hreturn')
  intro s₁ s₂ flows₁ flows₂ _ _ h₁ hreports₁ huncut₁ h₂ hreports₂ huncut₂
  have hcount := hmodest.nodesCounted
  obtain ⟨p, flow, hp, hoptimal, heq⟩ := totalCost_of_reports hcount h₁ hreports₁ huncut₁
  obtain ⟨p', flow', hp', hoptimal', heq'⟩ :=
    totalCost_of_reports (s := s.setMethod method) hcount h₂ hreports₂ huncut₂
  obtain rfl : p = p' := Option.some.inj (Except.ok.inj (hp.symm.trans hp'))
  have hleast : p.exact.totalCost flow = p.exact.totalCost flow' :=
    le_antisymm (hoptimal.2 flow' hoptimal'.1) (hoptimal'.2 flow hoptimal.1)
  have hraise := Configuration.totalCost_raise hp flow
  have hraise' := Configuration.totalCost_raise hp flow'
  rw [heq]
  refine Eq.trans ?_ heq'.symm
  show s.config.totalCost (s.config.raise flow) = s.config.totalCost (s.config.raise flow')
  omega

/-- Two runs over `parallelArcs` find an optimum, and the flows that they report cost the same. -/
theorem runs_agree_parallelArcs :
    ((run 20).run parallelSolver).1.outcome =
        ((run 20).run (parallelSolver.setMethod (.capacityScaling 0))).1.outcome ∧
      ∃ s₁ s₂ flows₁ flows₂ potentials₁ potentials₂,
        parallelSolver.Answers 20 .optimal s₁ ∧
        parallelSolver.Reports s₁ flows₁ potentials₁ ∧
        (parallelSolver.setMethod (.capacityScaling 0)).Answers 20 .optimal s₂ ∧
        (parallelSolver.setMethod (.capacityScaling 0)).Reports s₂ flows₂ potentials₂ ∧
        parallelSolver.config.totalCost (.ofFn fun a => (flows₁ a).val) =
          parallelSolver.config.totalCost (.ofFn fun a => (flows₂ a).val) := by
  obtain ⟨hsimplex, hscaling⟩ := answers_parallelSolver
  have hmodest : Configuration.parallelArcs.Modest := Configuration.modest_of_size _ (by decide)
  have hdemand : Configuration.parallelArcs.DemandCounted := by
    intro p hp
    obtain rfl : Configuration.parallelProblem = p :=
      Option.some.inj (Except.ok.inj (Configuration.prepare_parallelArcs.symm.trans hp))
    with_unfolding_all decide
  have huncut : ∀ flows, Configuration.parallelArcs.Uncut flows := by
    intro flows a hupper
    have hcapped : ∀ a, Configuration.parallelArcs.upperAt a ≠ none := by
      with_unfolding_all decide
    exact absurd hupper (hcapped a)
  obtain ⟨_, _, _, -, -, -, -, hreports⟩ := optimal_of_answers hsimplex
  obtain ⟨_, _, _, -, -, -, -, hreports'⟩ := optimal_of_answers hscaling
  obtain ⟨houtcome, hcost⟩ := runs_agree parallelSolver (.capacityScaling 0) 20 20 hmodest hdemand
    (Logged.returns_of_ok hsimplex.1) (Logged.returns_of_ok hscaling.1)
  exact ⟨houtcome, _, _, _, _, _, _, hsimplex, hreports, hscaling, hreports',
    hcost _ _ _ _ _ _ hsimplex hreports (huncut _) hscaling hreports' (huncut _)⟩

/-- Ten nodes without an arc, every other one with all the supply that a node can have. -/
def scatteredNodes : Configuration .bits64 (Word .bits64) where
  graph := { id := ⟨0⟩, nodeCount := 10, ends := #[], below := by decide }
  supply := .map
    { graph := ⟨0⟩
      values := #[full, short, full, short, full, short, full, short, full, short]
      fill := default }
where
  full : Word .bits64 := ⟨2305843009213693951, by decide⟩
  short : Word .bits64 := ⟨-2305843009213693951, by decide⟩

/-- A solver of `scatteredNodes`. -/
def scatteredSolver : Solver .bits64 (Word .bits64) where
  config := scatteredNodes
  method := .networkSimplex .bland

/-- The network simplex finds the problem infeasible; cost scaling cannot add the supplies up. -/
theorem scatteredSolver_disagrees :
    ((run 3).run scatteredSolver).1.outcome = .ok .infeasible ∧
      ((run 3).run (scatteredSolver.setMethod (.costScaling 16))).1.outcome =
        .error (.refused .arithmeticOverflow) := by
  constructor
  · with_unfolding_all rfl
  · with_unfolding_all rfl

end Solver

end NetworkFlow
