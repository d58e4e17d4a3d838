import NetworkFlow.Proofs.Methods

/-!
# What the reported potentials prove

Potentials prove a flow optimal if no arc that could carry more has a negative reduced cost and
none that carries more than its lower bound a positive one. What a run
reports has this property on every arc for which nothing is lost on the way back from the
engine: the potentials of its ends are not cut to the cost type, and on an arc without an upper
bound the flow stays below the capacity made up for it. An engine takes that capacity for a
real one; where it is used up, or is zero, the engine leaves an arc with a negative reduced cost that
could carry more.

## Main results

* `Word.Inner.val_clamp`: a potential that is not at an end of its range is the engine's.
* `lt_cap_of_restoreFlow`, `pos_of_restoreFlow`: what a reported flow says of the engine's.
* `potentials_certify`: what the reported potentials prove, arc by arc.
-/

namespace NetworkFlow

/-- The value is not at an end of the range of its type. -/
def Word.Inner {w : Width} (x : Word w) : Prop :=
  (Word.smallest w).val < x.val ∧ x.val < (Word.largest w).val

instance {w : Width} (x : Word w) : Decidable x.Inner := inferInstanceAs (Decidable (_ ∧ _))

/-- A clamped value that is not at an end of the range has not been cut. -/
theorem Word.Inner.val_clamp {w : Width} {x : Int} (h : (Word.clamp x : Word w).Inner) :
    (Word.clamp x : Word w).val = x := by
  obtain ⟨hlo, hhi⟩ := h
  unfold Word.clamp at *
  split
  · rfl
  · rename_i hfits
    simp only [hfits, dif_neg, not_false_eq_true] at hlo hhi
    split at hlo
    · omega
    · rename_i hneg
      simp only [hneg, if_false] at hhi
      omega

namespace Configuration

variable {w cw : Width} (c : Configuration w (Word cw))

/-- The reduced cost of an arc for given potentials. -/
def reducedCost (potentials : Fin c.nodes → Word cw) (a : Fin c.arcs) : Int :=
  (c.costAt a : Word cw).val + (potentials (c.graph.tail a)).val - (potentials (c.graph.head a)).val

/-- The potentials prove the flows optimal. -/
def Certified (flows : Fin c.arcs → Word w) (potentials : Fin c.nodes → Word cw) : Prop :=
  ∀ a, ((∀ upper, c.upperAt a = some upper → (flows a).val < upper) →
      0 ≤ c.reducedCost potentials a) ∧
    (c.lowerAt a < (flows a).val → c.reducedCost potentials a ≤ 0)

variable {c} {p : Problem c.nodes c.arcs (Cost.Wide (Word cw))}

theorem ends_of_prepare (h : c.prepare.outcome = .ok (some p)) (a : Fin c.arcs) :
    p.tail[a] = c.graph.tail a ∧ p.head[a] = c.graph.head a := by
  obtain ⟨_, _, _, -, -, -, -, -, rfl⟩ := c.prepare_eq_some h
  exact ⟨Table.getElem_ofFn _ a, Table.getElem_ofFn _ a⟩

theorem cap_of_prepare (h : c.prepare.outcome = .ok (some p)) {a : Fin c.arcs} {upper : Int}
    (hupper : c.upperAt a = some upper) : p.cap[a] = upper - c.lowerAt a := by
  obtain ⟨_, _, _, -, -, -, -, -, rfl⟩ := c.prepare_eq_some h
  simp [toProblem, spread, hupper]

section Flows

variable {flow : Table Int c.arcs} {a : Fin c.arcs}

/-- An arc that is reported with less than its upper bound, or with less than the made-up capacity,
has room left in the finite problem. -/
theorem lt_cap_of_restoreFlow (h : c.prepare.outcome = .ok (some p)) (hflow : p.amounts.Feasible flow)
    (hupper : ∀ upper, c.upperAt a = some upper →
      (restoreFlow p.lower[a] flow[a] : Word w).val < upper)
    (hroom : c.upperAt a = none →
      (restoreFlow p.lower[a] flow[a] : Word w).val < (Word.largest w).val ∧
      (restoreFlow p.lower[a] flow[a] : Word w).val - c.lowerAt a < p.cap[a]) :
    flow[a] < p.cap[a] := by
  have hval := val_restoreFlow_of_uncut h hflow (a := a) fun hnone => (hroom hnone).1
  cases hbound : c.upperAt a with
  | none =>
      have := (hroom hbound).2
      omega
  | some upper =>
      have := hupper upper hbound
      rw [cap_of_prepare h hbound]
      omega

/-- An arc that is reported with more than its lower bound carries something in the finite
problem. -/
theorem pos_of_restoreFlow (h : c.prepare.outcome = .ok (some p)) (hflow : p.amounts.Feasible flow)
    (hmore : c.lowerAt a < (restoreFlow p.lower[a] flow[a] : Word w).val) : 0 < flow[a] := by
  have hpos := (hflow.within a).1
  by_contra hzero
  have hreportable : Reportable w (flow[a] + c.lowerAt a) := by
    rw [show flow[a] = 0 by omega, zero_add]
    exact c.reportable_lowerAt a
  rw [lower_of_prepare h, val_restoreFlow hreportable.1] at hmore
  omega

end Flows

/-- The reduced costs of the finite problem are the configured ones. -/
theorem reducedCost_of_prepare (h : c.prepare.outcome = .ok (some p)) (a : Fin c.arcs)
    (potential : Table Int c.nodes) (potentials : Fin c.nodes → Word cw)
    (htail : (potentials (c.graph.tail a)).val = potential[c.graph.tail a])
    (hhead : (potentials (c.graph.head a)).val = potential[c.graph.head a]) :
    p.exact.cost[a] + potential[p.exact.tail[a]] - potential[p.exact.head[a]] =
      c.reducedCost potentials a := by
  obtain ⟨hends, hends'⟩ := ends_of_prepare h a
  have hcost : p.exact.cost[a] = (c.costAt a : Word cw).val := by
    rw [← val_cost_of_prepare h]
    exact Table.getElem_map _ _ _
  rw [hcost, show p.exact.tail[a] = c.graph.tail a from hends,
    show p.exact.head[a] = c.graph.head a from hends', ← htail, ← hhead]
  rfl

end Configuration

namespace Solver

variable {w cw : Width} {s s' : Solver w (Word cw)} {fuel : Nat}
  {p : Problem s.config.nodes s.config.arcs (Cost.Wide (Word cw))}

/-- Whatever the graph, the bounds, the costs, the supplies and the method are: if a run
finds an optimum, an arc between potentials that are not at an end of the range of the cost
type has no negative reduced cost if it is reported with less than its upper bound, and no positive
one if it is reported with more than its lower bound. Without an upper bound an arc has no negative
reduced cost either, as long as its flow has not been cut and is less than the made-up capacity. -/
theorem potentials_certify (hcount : s.config.NodesCounted)
    (hp : s.config.prepare.outcome = .ok (some p)) (h : s.Answers fuel .optimal s')
    {flows : Fin s.config.arcs → Word w} {potentials : Fin s.config.nodes → Word cw}
    (hreports : s.Reports s' flows potentials) (a : Fin s.config.arcs)
    (htail : (potentials (s.config.graph.tail a)).Inner)
    (hhead : (potentials (s.config.graph.head a)).Inner) :
    ((∀ upper, s.config.upperAt a = some upper → (flows a).val < upper) →
        (s.config.upperAt a = none → (flows a).val < (Word.largest w).val ∧
          (flows a).val - s.config.lowerAt a < p.cap[a]) →
        0 ≤ s.config.reducedCost potentials a) ∧
      (s.config.lowerAt a < (flows a).val → s.config.reducedCost potentials a ≤ 0) := by
  obtain ⟨p', flow, potential, hp', -, hengine, -, hreports'⟩ := optimal_of_answers h
  obtain rfl : p = p' := Option.some.inj (Except.ok.inj (hp.symm.trans hp'))
  obtain ⟨rfl, rfl⟩ := hreports.unique hreports'
  have hprepared := s.config.prepared_of_prepare hp
  have hfeasible := Method.solve_feasible (p := p) hprepared.amounts hengine
  have hcertifies := Method.certifies hprepared hcount hengine
  have hpotential : ∀ v : Fin s.config.nodes,
      (Cost.narrow potential[v] : Word cw).Inner →
      (Cost.narrow potential[v] : Word cw).val = (potential.map fun x : Word _ => x.val)[v] := by
    intro v hv
    rw [Table.getElem_map]
    exact Word.Inner.val_clamp hv
  have hreduced := Configuration.reducedCost_of_prepare hp a (potential.map (·.val))
    (fun v => Cost.narrow potential[v]) (hpotential _ htail) (hpotential _ hhead)
  obtain ⟨hraise, hlower⟩ := hcertifies a
  exact ⟨fun hupper hroom => (hraise (Configuration.lt_cap_of_restoreFlow hp hfeasible hupper
      hroom)).trans_eq hreduced,
    fun hmore => hreduced.symm.trans_le (hlower (Configuration.pos_of_restoreFlow hp hfeasible
      hmore))⟩

/-- The potentials that a run over `parallelArcs` reports prove its flows optimal. -/
theorem potentials_certify_parallelArcs :
    ∃ s' flows potentials,
      (parallelSolver.setMethod (.capacityScaling 0)).Answers 20 .optimal s' ∧
        (parallelSolver.setMethod (.capacityScaling 0)).Reports s' flows potentials ∧
        Configuration.parallelArcs.Certified flows potentials := by
  obtain ⟨-, hanswers⟩ := answers_parallelSolver
  have hcount : Configuration.parallelArcs.NodesCounted :=
    (Configuration.modest_of_size _ (by decide)).nodesCounted
  have hreports := reports_solution (parallelSolver.setMethod (.capacityScaling 0))
    (fun a : Fin 2 => Configuration.restoreFlow
      Configuration.parallelProblem.lower[a] (⟨#v[1, 1]⟩ : Table Int 2)[a])
    (fun v : Fin 2 => Cost.narrow
      (⟨#v[⟨-3, by decide⟩, ⟨0, by decide⟩]⟩ : Table (Word .bits128) 2)[v])
  have hinner : ∀ v : Fin 2, (Cost.narrow
      (⟨#v[⟨-3, by decide⟩, ⟨0, by decide⟩]⟩ : Table (Word .bits128) 2)[v] : Word .bits64).Inner := by
    with_unfolding_all decide
  have hcapped : ∀ a, Configuration.parallelArcs.upperAt a ≠ none := by
    with_unfolding_all decide
  refine ⟨_, _, _, hanswers, hreports, fun a => ?_⟩
  obtain ⟨hraise, hlower⟩ :=
    potentials_certify (s := parallelSolver.setMethod (.capacityScaling 0)) hcount
      Configuration.prepare_parallelArcs hanswers hreports a (hinner _) (hinner _)
  exact ⟨fun hupper => hraise hupper fun hnone => absurd hnone (hcapped a), hlower⟩

/-- One arc without an upper bound that earns five for each unit, from nowhere to nowhere. -/
def idleArc : Configuration .bits64 (Word .bits64) where
  graph := { id := ⟨0⟩, nodeCount := 2, ends := #[⟨0, 1⟩], below := Configuration.below_loneArc }
  cost := some { graph := ⟨0⟩, values := #[⟨-5, by decide⟩], fill := default }

/-- A solver of `idleArc`. -/
def idleSolver : Solver .bits64 (Word .bits64) where
  config := idleArc
  method := .capacityScaling 4

/-- The potentials that a run over `idleArc` reports are zero and prove nothing: the arc could carry
more, and its reduced cost is its cost. -/
theorem idleSolver_uncertified :
    ∃ s' flows potentials, idleSolver.Answers 9 .optimal s' ∧
      idleSolver.Reports s' flows potentials ∧ ¬ idleArc.Certified flows potentials := by
  have hprepare : idleArc.prepare.outcome = .ok (some (idleArc.toProblem ⟨#v[0, 0]⟩ 0)) := by
    with_unfolding_all rfl
  have hflag : (idleArc.toProblem ⟨#v[0, 0]⟩ 0).unbounded = false := by
    with_unfolding_all rfl
  have hengine : (CapacityScaling.solve 9 (idleArc.toProblem ⟨#v[0, 0]⟩ 0) 4).outcome =
      .ok (.feasible ⟨#v[0]⟩ ⟨#v[⟨0, by decide⟩, ⟨0, by decide⟩]⟩) := by
    with_unfolding_all rfl
  have hamounts : ∀ a : Fin idleArc.arcs, Width.bits64.Fits
      ((⟨#v[0]⟩ : Table Int idleArc.arcs)[a] + (idleArc.toProblem ⟨#v[0, 0]⟩ 0).lower[a]) := by
    with_unfolding_all decide
  refine ⟨_, _, _, answers_of_feasible (s := idleSolver) hprepare hflag hengine hamounts,
    reports_solution idleSolver _ _, fun hcertified => ?_⟩
  have hraise := (hcertified ⟨0, by decide⟩).1 fun upper hupper => (by cases hupper)
  revert hraise
  with_unfolding_all decide

end Solver

end NetworkFlow
