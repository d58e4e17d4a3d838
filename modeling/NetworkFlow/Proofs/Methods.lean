import NetworkFlow.Proofs.CapacityScaling.Words
import NetworkFlow.Proofs.Classification
import NetworkFlow.Proofs.CostScaling.Room
import NetworkFlow.Proofs.CostScaling.Words
import NetworkFlow.Proofs.NetworkSimplex.Room
import NetworkFlow.Proofs.NetworkSimplex.Words
import NetworkFlow.Proofs.Reported

/-!
# What the methods say on words

On integers each engine gives true answers and potentials that prove them. On words it does what
it does on integers, unless a sum or a product leaves the range and there is no answer at all. So
an answer on words is true, whatever the costs are; all that has to fit is the number of nodes,
which the engines turn into a cost.

How large the costs are matters only for refusals. A problem is modest if the cost of an artificial
arc and the scaled costs fit; then no engine refuses it, unless its demand is no amount.

## Main results

* `Method.lockstep_solve`: every method on words is in lockstep with itself on integers.
* `Method.isAnswer`, `Method.certifies`: what the methods say is right.
* `Method.refuses_nothing`: they refuse no modest problem, unless the demand is no amount.
-/

namespace NetworkFlow

open Finset

variable {n m : Nat}

namespace Method

variable {method : Method} {fuel : Nat}

/-- No engine says of a finite problem that its cost has no lower bound. -/
theorem solve_ne_unbounded {α : Type} [Scalar α] {p : Problem n m α} (hp : p.amounts.Prepared) :
    (method.solve fuel p).outcome ≠ .ok .unbounded := by
  intro h
  cases method with
  | networkSimplex rule => exact NetworkSimplex.solve_ne_unbounded hp h
  | costScaling alpha => exact CostScaling.solve_ne_unbounded h
  | capacityScaling factor =>
      obtain ⟨last, -, ⟨ho, -⟩ | ⟨ho, -⟩⟩ := CapacityScaling.solve_eq h <;> cases ho

section Integers

variable [ExactCosts] {p : Problem n m Int}

/-- On integers, the potentials that an engine finds certify its flow. -/
theorem certifies_exact (hp : p.Prepared) {flow : Table Int m} {potential : Table Int n}
    (h : (method.solve fuel p).outcome = .ok (.feasible flow potential)) :
    p.Certifies flow potential := by
  cases method with
  | networkSimplex rule => exact ((NetworkSimplex.solve_correct hp h).1 flow potential rfl).2
  | costScaling alpha =>
      rcases CostScaling.solve_correct hp h with ⟨_, _, ho, -, hcertifies⟩ | ⟨ho, -⟩
      · cases ho
        exact hcertifies
      · cases ho
  | capacityScaling factor =>
      rcases CapacityScaling.solve_correct hp h with ⟨_, _, ho, -, hcertifies⟩ | ⟨ho, -⟩
      · cases ho
        exact hcertifies
      · cases ho

/-- On integers, an engine finds a problem infeasible only if it is. -/
theorem infeasible_exact (hp : p.Prepared) (h : (method.solve fuel p).outcome = .ok .infeasible) :
    ¬ ∃ flow, p.Feasible flow := by
  cases method with
  | networkSimplex rule => exact (NetworkSimplex.solve_correct hp h).2 rfl
  | costScaling alpha =>
      rcases CostScaling.solve_correct hp h with ⟨_, _, ho, -⟩ | ⟨-, hnone⟩
      · cases ho
      · exact hnone
  | capacityScaling factor =>
      rcases CapacityScaling.solve_correct hp h with ⟨_, _, ho, -⟩ | ⟨-, hnone⟩
      · cases ho
      · exact hnone

end Integers

section Words

variable {w : Width} {p : Problem n m (Word w)} {top : Int} {o : Outcome n m (Word w)}

/-- Every method on words is in lockstep with itself on integers. -/
theorem lockstep_solve [inst : ExactCosts] (hwidth : inst.width = w)
    (hcount : (n : Int) + 1 < w.half) (fuel : Nat) :
    Logged.Lockstep Outcome.exact (method.solve fuel p) (method.solve fuel p.exact) := by
  cases method with
  | networkSimplex rule => exact NetworkSimplex.lockstep_solve hwidth hcount fuel rule
  | costScaling alpha => exact CostScaling.lockstep_solve hwidth hcount fuel alpha
  | capacityScaling factor => exact CapacityScaling.lockstep_solve fuel p factor

/-- The potentials that an engine finds on words, read as integers, certify its flow. -/
theorem certifies (hp : p.exact.Prepared) (hcount : (n : Int) + 1 < w.half) {flow : Table Int m}
    {potential : Table (Word w) n}
    (h : (method.solve fuel p).outcome = .ok (.feasible flow potential)) :
    p.exact.Certifies flow (potential.map (·.val)) := by
  let _ := ExactCosts.ofWidth w
  exact certifies_exact hp ((lockstep_solve rfl hcount fuel).outcome_eq_ok h)

/-- What an engine says on words is right. -/
theorem isAnswer (hp : p.exact.Prepared) (hcount : (n : Int) + 1 < w.half)
    (h : (method.solve fuel p).outcome = .ok o) : p.exact.IsAnswer o := by
  let _ := ExactCosts.ofWidth w
  cases o with
  | infeasible => exact infeasible_exact hp ((lockstep_solve rfl hcount fuel).outcome_eq_ok h)
  | unbounded => exact absurd h (solve_ne_unbounded hp.amounts)
  | feasible flow potential =>
      exact Problem.feasible_amounts.mp (solve_feasible (p := p) hp.amounts h)

/-- No engine refuses a problem whose artificial arcs cost no more than fits, cost scaling apart,
which has to count the demand. -/
theorem refuses_nothing (hp : p.exact.Prepared) (htop : ∀ a : Fin m, |p.cost[a].val| ≤ top)
    (hnonneg : 0 ≤ top) (hfits : ((n : Int) + 1) * (top + 1) < w.half)
    (hdemand : method.algorithm = .costScaling → ∑ v : Fin n, max p.supply[v] 0 ≤ Amount.largest) :
    (method.solve fuel p).RefusesOnly fun _ => False := by
  cases method with
  | networkSimplex rule => exact NetworkSimplex.solve_refuses_nothing htop hnonneg hfits
  | costScaling alpha => exact CostScaling.solve_refuses_nothing htop hnonneg hp hfits (hdemand rfl)
  | capacityScaling factor => exact CapacityScaling.refusesOnly_solve fuel p factor

end Words

end Method

namespace Configuration

variable {w cw : Width} (c : Configuration w (Word cw))

/-- One more than the number of nodes fits the type that the engines compute in. -/
def NodesCounted : Prop := (c.nodes : Int) + 1 < cw.wider.half

instance : Decidable c.NodesCounted := inferInstanceAs (Decidable (_ < _))

/-- What an artificial arc costs and the scaled costs fit the type that the engines compute in: the
largest cost times the number of nodes does, each with one to spare. -/
def Modest : Prop :=
  ∃ top : Nat, (∀ a : Fin c.arcs, |(c.costAt a : Word cw).val| ≤ top) ∧
    (c.nodes + 1) * (top + 1) < cw.wider.half

theorem abs_costAt_le (a : Nat) : |(c.costAt a : Word cw).val| ≤ cw.half := by
  obtain ⟨hlo, hhi⟩ := (c.costAt a : Word cw).fits
  exact abs_le.mpr ⟨hlo, hhi.le⟩

/-- No cost exceeds the range of its type, so a small graph is enough. -/
theorem modest_of_size (h : (c.nodes + 1) * (cw.half + 1) < cw.wider.half) : c.Modest :=
  ⟨cw.half, fun a => c.abs_costAt_le a, h⟩

variable {c} {p : Problem c.nodes c.arcs (Cost.Wide (Word cw))}

theorem Modest.nodesCounted (h : c.Modest) : c.NodesCounted := by
  obtain ⟨top, -, hroom⟩ := h
  have hle : c.nodes + 1 ≤ (c.nodes + 1) * (top + 1) := Nat.le_mul_of_pos_right _ (by omega)
  unfold NodesCounted
  omega

theorem val_cost_of_prepare (h : c.prepare.outcome = .ok (some p)) (a : Fin c.arcs) :
    p.cost[a].val = (c.costAt a : Word cw).val := by
  obtain ⟨_, _, _, -, -, -, -, -, rfl⟩ := c.prepare_eq_some h
  show (Table.ofFn fun a : Fin c.arcs => (c.costAt a : Word cw).widen)[a].val = _
  rw [Table.getElem_ofFn]
  rfl

/-- No engine refuses the finite problem of a modest one, cost scaling apart. -/
theorem Modest.refuses_nothing (hmodest : c.Modest) (h : c.prepare.outcome = .ok (some p))
    {method : Method} {fuel : Nat}
    (hdemand : method.algorithm = .costScaling →
      ∑ v : Fin c.nodes, max p.supply[v] 0 ≤ Amount.largest) :
    (method.solve fuel p).RefusesOnly fun _ => False := by
  obtain ⟨top, hcost, hroom⟩ := hmodest
  have htop : ∀ a : Fin c.arcs, |p.cost[a].val| ≤ top := fun a => by
    rw [val_cost_of_prepare h]
    exact hcost a
  exact Method.refuses_nothing (c.prepared_of_prepare h) htop (by omega) (by exact_mod_cast hroom)
    hdemand

end Configuration

namespace Solver

/-- A solver of `parallelArcs`. -/
def parallelSolver : Solver .bits64 (Word .bits64) where
  config := Configuration.parallelArcs
  method := .networkSimplex .bland

/-- What a run leaves of a solver of `parallelArcs` if one unit takes each arc. -/
def parallelSolved (method : Method) (potential : Table (Word .bits128) 2) :
    Solver .bits64 (Word .bits64) where
  config := Configuration.parallelArcs
  method := method
  solution := some (.optimal
    (Array.ofFn fun a : Fin 2 => Configuration.restoreFlow
      Configuration.parallelProblem.lower[a] (⟨#v[1, 1]⟩ : Table Int 2)[a])
    (Array.ofFn fun v : Fin 2 => Cost.narrow potential[v]))

/-- The network simplex and capacity scaling find different potentials. -/
theorem answers_parallelSolver :
    parallelSolver.Answers 20 .optimal
      (parallelSolved parallelSolver.method ⟨#v[⟨9, by decide⟩, ⟨12, by decide⟩]⟩) ∧
    (parallelSolver.setMethod (.capacityScaling 0)).Answers 20 .optimal
      (parallelSolved (.capacityScaling 0) ⟨#v[⟨-3, by decide⟩, ⟨0, by decide⟩]⟩) := by
  have hprepare := Configuration.prepare_parallelArcs
  have hflag : Configuration.parallelProblem.unbounded = false := by
    with_unfolding_all rfl
  have hamounts : ∀ a : Fin 2, Width.bits64.Fits
      ((⟨#v[1, 1]⟩ : Table Int 2)[a] + Configuration.parallelProblem.lower[a]) := by
    with_unfolding_all decide
  have hsimplex : (NetworkSimplex.solve 20 Configuration.parallelProblem .bland).outcome =
      .ok (.feasible ⟨#v[1, 1]⟩ ⟨#v[⟨9, by decide⟩, ⟨12, by decide⟩]⟩) := by
    decide +kernel
  have hscaling : (CapacityScaling.solve 20 Configuration.parallelProblem 0).outcome =
      .ok (.feasible ⟨#v[1, 1]⟩ ⟨#v[⟨-3, by decide⟩, ⟨0, by decide⟩]⟩) := by
    decide +kernel
  exact ⟨answers_of_feasible (s := parallelSolver) hprepare hflag hsimplex hamounts,
    answers_of_feasible (s := parallelSolver.setMethod (.capacityScaling 0)) hprepare hflag
      hscaling hamounts⟩

end Solver

end NetworkFlow
