import NetworkFlow.Proofs.BellmanFord.Distances
import NetworkFlow.Proofs.BellmanFord.Words
import NetworkFlow.Proofs.Configured
import NetworkFlow.Solver

/-!
# What the verdict says about the configured problem

A configured problem is infeasible if no flow meets it, unbounded if flows that
meet it cost less than any bound, and otherwise one of them is optimal. The verdict
is made of two things: the answer of an engine to the finite problem, and whether
the preparation found a cycle of negative cost among the arcs without an upper
bound. Together they tell which of the three cases it is.

The cycle is looked for in the arithmetic of the engines. A preparation that comes to
its end has looked for it with sums that all fit, so it has found it if there is one;
otherwise a sum has left the range and there is no finite problem (`steepCycle`).

## Main results

* `unbounded_iff_hasNegativeCycle`: the search finds a cycle if there is one.
* `hasNegativeCycle_iff`: the cost of a feasible problem has no lower bound if there is a cycle.
* `optimal_raise`: without a cycle, optimal flows of the finite problem are optimal.
* `prepare_classifies`: the finite problem and the flag decide the configured problem.
-/

namespace NetworkFlow

open Finset BellmanFord

namespace Problem

variable {n m : Nat}

/-- A feasible problem has an optimal flow: within the capacities the cost cannot sink for ever. -/
theorem exists_optimal {p : Problem n m Int} (h : ∃ flow, p.Feasible flow) :
    ∃ flow, p.Optimal flow := by
  obtain ⟨flow, hfeasible, hleast⟩ :=
    (measure (p.slack p.cost)).wf.has_min {flow | p.Feasible flow} h
  refine ⟨flow, hfeasible, fun other hother => not_lt.mp fun hless => ?_⟩
  exact hleast other hother (hother.within.slack_lt hless)

/-- What an engine says about the problem is true. -/
def IsAnswer {β : Type} (p : Problem n m Int) : Outcome n m β → Prop
  | .infeasible => ¬ ∃ flow, p.Feasible flow
  | .unbounded => (∃ flow, p.Feasible flow) ∧
      ∀ bound, ∃ flow, p.Feasible flow ∧ p.totalCost flow < bound
  | .feasible flow _ => p.Feasible flow

end Problem

namespace Configuration

variable {w cw : Width} (c : Configuration w (Word cw))

/-- What a flow costs. -/
def totalCost (flow : Table Int c.arcs) : Int := ∑ a : Fin c.arcs, (c.costAt a : Word cw).val * flow[a]

/-- The flow meets bounds and supplies, and no flow that does costs less. -/
structure Optimal (flow : Table Int c.arcs) : Prop where
  meets : c.Meets flow
  least : ∀ other, c.Meets other → c.totalCost flow ≤ c.totalCost other

/-- The cost of the flows that meet bounds and supplies has no lower bound. -/
def Unbounded : Prop := ∀ bound, ∃ flow, c.Meets flow ∧ c.totalCost flow < bound

/-- The verdict is right. -/
def Deserves : Verdict → Prop
  | .infeasible => ¬ ∃ flow, c.Meets flow
  | .unbounded => (∃ flow, c.Meets flow) ∧ c.Unbounded
  | .optimal => ∃ flow, c.Optimal flow

/-- The arcs without an upper bound. -/
def uncappedArcs : List (Fin c.arcs) := (List.finRange c.arcs).filter fun a => (c.upperAt a).isNone

/-- Arcs without an upper bound lead from a node back to it at a negative cost. -/
def HasNegativeCycle : Prop :=
  ∃ u cycle, IsWalk c.costed.exact c.uncappedArcs u u cycle ∧ costSum c.costed.exact cycle < 0

/-- The arcs without a capacity are those without an upper bound. -/
theorem uncapped_eq : c.uncapped = c.uncappedArcs := by
  apply List.filter_congr
  intro a _
  simp [spread]

/-- If what a preparation computes from the costs fits, the cycle is looked for as it is with
integers. -/
theorem exact_run_uncapped [ExactCosts]
    (hfits : ∀ op ∈ (c.costOperations : List (CostOperation (Word cw.wider))), op.Fits) :
    (BellmanFord.run c.costed c.costTolerance c.uncapped).exact =
      BellmanFord.run c.costed.exact 0 c.uncappedArcs := by
  rw [exact_run (c.costed.reads_exact _) fun op hop => hfits op (by simp [costOperations, hop]),
    c.val_costTolerance,
    c.uncapped_eq]

variable {c} {p : Problem c.nodes c.arcs (Cost.Wide (Word cw))}

section Costs

theorem costedArcs_eq (h : c.prepare.outcome = .ok (some p)) :
    p.exact.costedArcs = c.costed.exact := by
  obtain ⟨_, _, _, -, -, -, -, -, rfl⟩ := c.prepare_eq_some h
  simp only [Problem.costedArcs, CostedArcs.exact, costed, CostedArcs.mk.injEq]
  refine ⟨funext fun a => Table.getElem_ofFn _ a, funext fun a => Table.getElem_ofFn _ a,
    funext fun a => ?_⟩
  show ((Table.ofFn _).map _)[a] = _
  rw [Table.getElem_map, Table.getElem_ofFn]

theorem freeArcs_eq (h : c.prepare.outcome = .ok (some p)) :
    p.exact.freeArcs = c.uncappedArcs := by
  obtain ⟨_, _, _, -, -, -, -, -, rfl⟩ := c.prepare_eq_some h
  apply List.filter_congr
  intro a _
  simp [Problem.exact, toProblem, spread]

theorem hasFreeCycle_iff (h : c.prepare.outcome = .ok (some p)) :
    p.exact.HasFreeCycle ↔ c.HasNegativeCycle := by
  rw [Problem.HasFreeCycle, costedArcs_eq h, freeArcs_eq h]
  rfl

/-- The lower bounds cost the same whatever else flows. -/
theorem totalCost_raise (h : c.prepare.outcome = .ok (some p)) (flow : Table Int c.arcs) :
    c.totalCost (c.raise flow) = p.exact.totalCost flow + c.totalCost c.lowerFlow := by
  have hcost : ∀ a : Fin c.arcs, p.exact.cost[a] = (c.costAt a : Word cw).val := fun a =>
    congrFun (congrArg CostedArcs.cost (costedArcs_eq h)) a
  simp only [totalCost, Problem.totalCost, costOf, ← sum_add_distrib, hcost]
  apply sum_congr rfl
  intro a _
  rw [getElem_raise, lowerFlow, Table.getElem_ofFn]
  ring

/-- What a preparation that returns a problem has computed from the costs fits. -/
theorem fits_of_prepare (h : c.prepare.outcome = .ok (some p)) :
    ∀ op ∈ (c.costOperations : List (CostOperation (Word cw.wider))), op.Fits :=
  fun op hop => fits_word_iff.mp (c.costOperations_fit h op hop)

/-- The search finds a cycle of negative cost if there is one. -/
theorem unbounded_iff_hasNegativeCycle (h : c.prepare.outcome = .ok (some p)) :
    p.unbounded = true ↔ c.HasNegativeCycle := by
  let _ := ExactCosts.ofWidth cw.wider
  have hrun := c.exact_run_uncapped (fits_of_prepare h)
  obtain ⟨_, shifted, madeUp, -, -, -, -, -, rfl⟩ := c.prepare_eq_some h
  have hflag : (c.toProblem shifted madeUp).unbounded = c.hasUnboundedCycle c.costTolerance := rfl
  rw [hflag, hasUnboundedCycle]
  cases hwords : BellmanFord.run c.costed c.costTolerance c.uncapped with
  | negativeCycle cycle =>
      rw [hwords] at hrun
      exact iff_of_true rfl (run_negativeCycle hrun.symm).exists_isWalk
  | converged dist =>
      rw [hwords] at hrun
      refine iff_of_false Bool.false_ne_true ?_
      rintro ⟨u, cycle, hwalk, hnegative⟩
      have := costSum_nonneg_of_converged hrun.symm hwalk
      omega

/-- The finite problem has the flows of the configured one, made-up capacities apart. -/
theorem admits_exact_iff (h : c.prepare.outcome = .ok (some p)) (flow : Table Int c.arcs) :
    p.exact.Admits flow ↔ c.Meets (c.raise flow) := by
  rw [← admits_iff_meets h]
  constructor <;> exact fun hadmits => ⟨hadmits.nonneg, hadmits.le_cap, hadmits.balanced⟩

theorem exists_feasible_exact_iff (h : c.prepare.outcome = .ok (some p)) :
    (∃ flow, p.exact.Feasible flow) ↔ ∃ flow, c.Meets flow := by
  rw [← exists_feasible_iff h]
  constructor <;> exact fun ⟨flow, hfeasible⟩ => ⟨flow, hfeasible.within, hfeasible.balanced⟩

/-- Without a cycle of negative cost, a flow that costs least among those within the made-up
capacities costs least among all. -/
theorem optimal_raise (h : c.prepare.outcome = .ok (some p)) (hcycle : ¬ c.HasNegativeCycle)
    {flow : Table Int c.arcs} (hoptimal : p.exact.Optimal flow) : c.Optimal (c.raise flow) := by
  refine ⟨(admits_exact_iff h flow).mp hoptimal.feasible.admits, fun other hother => ?_⟩
  have hadmits : p.exact.Admits (c.excess other) :=
    (admits_exact_iff h _).mpr (by rwa [raise_excess])
  obtain ⟨flow', hfeasible, hle⟩ := hadmits.exists_feasible
    (fun a ha => (madeUp_eq_throughput h ha).ge) (mt (hasFreeCycle_iff h).mp hcycle)
  have hleast := hoptimal.least flow' hfeasible
  have hother := totalCost_raise h (c.excess other)
  rw [raise_excess] at hother
  rw [totalCost_raise h, hother]
  omega

/-- The cost of a feasible problem has no lower bound if there is a cycle of negative cost, and
only then. -/
theorem hasNegativeCycle_iff (h : c.prepare.outcome = .ok (some p)) (hmeets : ∃ flow, c.Meets flow) :
    c.HasNegativeCycle ↔ c.Unbounded := by
  constructor
  · intro hcycle bound
    obtain ⟨flow, hflow⟩ := hmeets
    have hadmits : p.exact.Admits (c.excess flow) :=
      (admits_exact_iff h _).mpr (by rwa [raise_excess])
    obtain ⟨flow', hadmits', hless⟩ :=
      hadmits.exists_cheaper ((hasFreeCycle_iff h).mpr hcycle) (bound - c.totalCost c.lowerFlow)
    refine ⟨c.raise flow', (admits_exact_iff h flow').mp hadmits', ?_⟩
    rw [totalCost_raise h]
    omega
  · intro hunbounded
    by_contra hcycle
    obtain ⟨flow, hoptimal⟩ := Problem.exists_optimal ((exists_feasible_exact_iff h).mpr hmeets)
    have hleast := (optimal_raise h hcycle hoptimal).least
    obtain ⟨other, hother, hless⟩ := hunbounded (c.totalCost (c.raise flow))
    exact absurd (hleast other hother) (not_le.mpr hless)

/-- The verdict made of a true answer to the finite problem and of the flag is right. -/
theorem deserves_translate (h : c.prepare.outcome = .ok (some p))
    {outcome : Outcome c.nodes c.arcs (Cost.Wide (Word cw))} {solution : Solution w (Word cw)}
    (hanswer : p.exact.IsAnswer outcome) (htranslate : translate p outcome = .ok solution) :
    c.Deserves solution.verdict := by
  have hflag := unbounded_iff_hasNegativeCycle h
  cases outcome with
  | infeasible =>
      cases htranslate
      exact fun hmeets => hanswer ((exists_feasible_exact_iff h).mpr hmeets)
  | unbounded =>
      cases htranslate
      obtain ⟨hfeasible, hunbounded⟩ := hanswer
      refine ⟨(exists_feasible_exact_iff h).mp hfeasible, fun bound => ?_⟩
      obtain ⟨flow, hflow, hless⟩ := hunbounded (bound - c.totalCost c.lowerFlow)
      refine ⟨c.raise flow, (admits_exact_iff h flow).mp hflow.admits, ?_⟩
      rw [totalCost_raise h]
      omega
  | feasible flow potential =>
      have hfeasible : ∃ flow, p.exact.Feasible flow := ⟨flow, hanswer⟩
      have hmeets := (exists_feasible_exact_iff h).mp hfeasible
      simp only [translate] at htranslate
      split at htranslate
      · cases htranslate
        exact ⟨hmeets, (hasNegativeCycle_iff h hmeets).mp (hflag.mp ‹_›)⟩
      · split at htranslate <;> cases htranslate
        obtain ⟨flow', hoptimal⟩ := Problem.exists_optimal hfeasible
        exact ⟨_, optimal_raise h (mt hflag.mpr ‹_›) hoptimal⟩

end Costs

/-- If nothing is prepared, no flow meets bounds and supplies. If a finite problem is, it and its
flag decide the configured problem: the finite problem is feasible if the configured one is; the
flag tells whether arcs without an upper bound form a cycle of negative cost, and so whether the
cost of a feasible problem has no lower bound; without such a cycle, the optimal flows of the finite
problem are optimal among all flows of the configured one. The verdict made of them is right. -/
theorem prepare_classifies (c : Configuration w (Word cw)) :
    (c.prepare.outcome = .ok none → c.Deserves .infeasible) ∧
      ∀ p, c.prepare.outcome = .ok (some p) →
        ((∃ flow, p.exact.Feasible flow) ↔ ∃ flow, c.Meets flow) ∧
        (p.unbounded = true ↔ c.HasNegativeCycle) ∧
        ((∃ flow, c.Meets flow) → (p.unbounded = true ↔ c.Unbounded)) ∧
        (p.unbounded = false → ∀ flow, p.exact.Optimal flow → c.Optimal (c.raise flow)) ∧
        ∀ outcome (solution : Solution w (Word cw)), p.exact.IsAnswer outcome →
          translate p outcome = .ok solution → c.Deserves solution.verdict := by
  refine ⟨fun h => not_meets_of_prepare h, fun p h => ?_⟩
  have hflag := unbounded_iff_hasNegativeCycle h
  refine ⟨exists_feasible_exact_iff h, hflag, fun hmeets => ?_, fun hfalse flow hoptimal => ?_,
    fun outcome solution hanswer htranslate => deserves_translate h hanswer htranslate⟩
  · exact hflag.trans (hasNegativeCycle_iff h hmeets)
  · exact optimal_raise h (fun hcycle => by simp [hflag.mpr hcycle] at hfalse) hoptimal

/-- Five units over two parallel arcs, the dearer one without an upper bound and with one unit to
carry in any case. -/
def leveeArcs : Configuration .bits64 (Word .bits64) where
  graph := parallelArcs.graph
  lower := some { graph := ⟨0⟩, values := #[.clamp 1, .clamp 0], fill := default }
  upper := some { graph := ⟨0⟩, values := #[.largest .bits64, .clamp 3], fill := default }
  cost := some { graph := ⟨0⟩, values := #[.clamp 2, .clamp 1], fill := default }
  supply := .single ⟨0, Nat.two_pos⟩ ⟨1, Nat.one_lt_two⟩ ⟨5, by decide⟩

/-- The finite problem of `leveeArcs`: the arc without an upper bound may carry all four units that
are left and the three of the other arc. -/
def leveeProblem : Problem 2 2 (Word .bits128) := leveeArcs.toProblem ⟨#v[4, -4]⟩ 7

/-- One unit more than the lower bound takes the dearer arc. -/
theorem prepare_classifies_leveeArcs :
    leveeArcs.prepare.outcome = .ok (some leveeProblem) ∧ leveeArcs.Optimal ⟨#v[2, 3]⟩ := by
  have hprepare : leveeArcs.prepare.outcome = .ok (some leveeProblem) := by
    with_unfolding_all rfl
  have hfeasible : leveeProblem.exact.Feasible ⟨#v[1, 3]⟩ := by
    with_unfolding_all decide
  have hcertifies : leveeProblem.exact.Certifies ⟨#v[1, 3]⟩ ⟨#v[0, 2]⟩ := by
    with_unfolding_all decide
  obtain ⟨-, -, -, hoptimal, -⟩ := (prepare_classifies leveeArcs).2 leveeProblem hprepare
  exact ⟨hprepare, hoptimal (by with_unfolding_all rfl) _ (hcertifies.optimal hfeasible)⟩

/-- Two arcs without an upper bound that form a cycle, at costs that no wider arithmetic holds. -/
def steepCycle : Configuration .bits64 (Word .bits128) where
  graph := { id := ⟨0⟩, nodeCount := 2, ends := #[⟨0, 1⟩, ⟨1, 0⟩], below := by decide }
  cost := some
    { graph := ⟨0⟩
      values := #[⟨-100000000000000000000000000000000000000, by decide⟩,
        ⟨-100000000000000000000000000000000000000, by decide⟩]
      fill := default }

/-- The distances around the cycle leave the range, so the preparation does not come to its end. -/
example : steepCycle.prepare.outcome = .error .overflow := by with_unfolding_all rfl

end Configuration

end NetworkFlow
