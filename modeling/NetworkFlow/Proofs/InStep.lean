import NetworkFlow.Proofs.CapacityScaling.Room
import NetworkFlow.Proofs.Methods

/-!
# Runs in step with the integers

A run computes costs with words of a certain width. Either some operation leaves the range, and this
ends the run; or all of them give the integers that they should, and the run is the one with exact
integers, event by event, to the same verdict, with the same flows and potentials. There is no third
case, whatever the graph, the costs and the method are.

The first case cannot occur if the largest cost leaves enough room. How much room that is depends on
the size of the graph only. Without it, a problem that integers solve may have no answer on words:
the cost of an artificial arc is checked and refused if need be, but the sum of two of them and a
cost is not (`steepSolver`).

## Main results

* `Configuration.lockstep_prepare`: the finite problem on words is the one on integers.
* `Configuration.Roomy.costsFit`: how much room is enough.
* `Solver.run_in_step`: a run overflows or is the run with exact integers.
-/

namespace NetworkFlow

open BellmanFord

/-- Words as costs that are computed with as integers. -/
@[reducible] def Cost.exact (cw : Width) : Cost (Word cw) where
  Wide := Int
  scalar := Scalar.exact cw.wider
  default := default
  unit := ⟨1, cw.fits_one⟩
  widen x := x.val
  narrow x := .clamp x

namespace Configuration

variable {w cw : Width} (c : Configuration w (Word cw))

/-- If what a preparation computes from the costs fits, the flag is the one of exact integers. -/
theorem hasUnboundedCycle_exact
    (hfits : ∀ op ∈ (c.costOperations : List (CostOperation (Word cw.wider))), op.Fits) :
    @hasUnboundedCycle w (Word cw) c (Cost.exact cw) 0 =
      c.hasUnboundedCycle (c.costTolerance : Word cw.wider) := by
  let _ := ExactCosts.ofWidth cw.wider
  have hrun : @BellmanFord.run _ _ (@Cost.Wide (Word cw) (Cost.exact cw)) _
      (@costed w (Word cw) c (Cost.exact cw)) 0 c.uncapped =
      (BellmanFord.run c.costed c.costTolerance c.uncapped).exact := by
    rw [c.exact_run_uncapped hfits, c.uncapped_eq]
    rfl
  unfold hasUnboundedCycle
  rw [hrun]
  cases BellmanFord.run c.costed c.costTolerance c.uncapped <;> rfl

/-- Then the finite problem with exact costs is the one on words. -/
theorem toProblem_exact
    (hfits : ∀ op ∈ (c.costOperations : List (CostOperation (Word cw.wider))), op.Fits)
    (supply : Table Int c.nodes) (madeUp : Int) :
    @toProblem w (Word cw) c (Cost.exact cw) supply madeUp = (c.toProblem supply madeUp).exact := by
  obtain ⟨tolerance, hzero, heq⟩ : ∃ tolerance : Int, tolerance = 0 ∧
      @toProblem w (Word cw) c (Cost.exact cw) supply madeUp =
        { c.toProblem supply madeUp with
          cost := .ofFn fun a => (c.costAt a : Word cw).val
          tolerance
          unbounded := @hasUnboundedCycle w (Word cw) c (Cost.exact cw) tolerance } :=
    ⟨_, zero_mul _, rfl⟩
  have hcost : (Table.ofFn fun a : Fin c.arcs => (c.costAt a : Word cw).val) =
      (c.toProblem supply madeUp).cost.map (·.val) := by
    apply Table.ext
    intro a
    simp only [toProblem, wideCosts, Table.getElem_map, Table.getElem_ofFn]
    rfl
  have htolerance : (c.toProblem supply madeUp).tolerance.val = 0 := c.val_costTolerance
  have hcycle : @hasUnboundedCycle w (Word cw) c (Cost.exact cw) tolerance =
      (c.toProblem supply madeUp).unbounded := by
    rw [hzero]
    exact c.hasUnboundedCycle_exact hfits
  rw [heq, hcost, hcycle, hzero, ← htolerance]
  rfl

/-- The preparation on words is in lockstep with the one on integers. -/
theorem lockstep_prepare : Logged.Lockstep (Option.map Problem.exact) c.prepare
    (@prepare w (Word cw) c (Cost.exact cw)) := by
  let _ := ExactCosts.ofWidth cw.wider
  unfold prepare
  refine .bind (.refl _) fun supply _ => ?_
  simp only [id_eq]
  cases c.shiftedSupplies supply with
  | error obstacle => cases obstacle <;> exact .of_eq_map rfl
  | ok shifted =>
      refine .bind (.refl _) fun total _ => ?_
      simp only [id_eq]
      split
      · exact .of_eq_map rfl
      · refine .bind (.refl _) fun madeUp _ => ?_
        simp only [id_eq]
        have hcap : (@toProblem w (Word cw) c (Cost.exact cw) shifted madeUp).cap =
            (c.toProblem shifted madeUp).cap := rfl
        rw [hcap]
        cases List.findIdx? (Amount.loadLimit < ·)
            (c.load shifted (c.toProblem shifted madeUp).cap).toList with
        | some v => exact .of_eq_map rfl
        | none =>
            refine .guard fun hfits => .of_eq_map ?_
            rw [c.toProblem_exact hfits]
            rfl

/-- An answer of an engine means the same whether its potentials are words or integers. -/
theorem translate_exact (p : Problem c.nodes c.arcs (Word cw.wider))
    (o : Outcome c.nodes c.arcs (Word cw.wider)) :
    @translate w (Word cw) (Cost.exact cw) _ _ p.exact o.exact = translate p o := by
  cases o with
  | infeasible => rfl
  | unbounded => rfl
  | feasible flow potential =>
      have hnarrow : ∀ v : Fin c.nodes, (Cost.exact cw).narrow (potential.map (·.val))[v] =
          Cost.narrow potential[v] := by
        intro v
        rw [Table.getElem_map]
        rfl
      show (if p.unbounded then _ else if _ then _ else _) =
        if p.unbounded then _ else if _ then _ else _
      simp only [hnarrow]
      rfl

/-- The preparation and the engine stay in the range of the costs. -/
structure CostsFit (method : Method) (fuel : Nat) : Prop where
  prepared : c.prepare.NoOverflow
  solved : ∀ p, c.prepare.outcome = .ok (some p) → (method.solve fuel p).NoOverflow

variable {c} {method : Method} {fuel : Nat}

/-- If all costs fit, a problem is solved on words as it is on integers. -/
theorem CostsFit.solve_exact (hfits : c.CostsFit method fuel) (hcount : c.NodesCounted) :
    @solve w (Word cw) (Cost.exact cw) c fuel method = c.solve fuel method := by
  let _ := ExactCosts.ofWidth cw.wider
  unfold solve
  refine (Logged.bind_eq_map (e := Option.map Problem.exact) (g := id)
    (c.lockstep_prepare hfits.prepared) fun prepared hprepared => ?_).trans (id_map _)
  rw [id_map]
  cases prepared with
  | none => rfl
  | some p =>
      refine (Logged.bind_eq_map (e := Outcome.exact) (g := id)
        (Method.lockstep_solve rfl hcount fuel (hfits.solved p hprepared)) fun o _ => ?_).trans
        (id_map _)
      rw [id_map, c.translate_exact p o]

/-- If they do not, the run ends with an overflow. -/
theorem solve_eq_overflow (h : ¬ c.CostsFit method fuel) :
    (c.solve fuel method).outcome = .error .overflow := by
  by_contra hne
  have hfits : (c.solve fuel method).NoOverflow := hne
  refine h ⟨fun hprepare => hfits (Logged.outcome_bind_eq_error.mpr (Or.inl hprepare)),
    fun p hp hsolve => hfits (Logged.outcome_bind_eq_error.mpr (Or.inr ⟨some p, hp, ?_⟩))⟩
  exact Logged.outcome_bind_eq_error.mpr (Or.inl hsolve)

end Configuration

/-! ## Room for the costs -/

/-- What must fit for the sake of the engines, one after the other: the reduced costs of the network
simplex, the prices of cost scaling, the distances of its cycle search and those of capacity
scaling. -/
theorem fits_of_room {half n m top : Int} (hn : 0 ≤ n) (hm : 0 ≤ m) (htop : 0 ≤ top)
    (hroom : (n + 1) * (2 * m + 3 * n + 200) * (top + 1) ≤ half) :
    5 * ((n + 1) * (top + 1)) ≤ half ∧ (3 * n + 1) * ((n + 1) * (top + 1)) < half ∧
      n * (2 * m * top) + top < half ∧ (n + 1) * top + 64 * (2 * (n * top)) < half := by
  have hunit : 0 < (n + 1) * (top + 1) := by positivity
  have harcs : 0 ≤ m * ((n + 1) * (top + 1)) := by positivity
  have hnodes : 0 ≤ n * ((n + 1) * (top + 1)) := by positivity
  have hsplit : (n + 1) * (2 * m + 3 * n + 200) * (top + 1) =
      2 * (m * ((n + 1) * (top + 1))) + 3 * (n * ((n + 1) * (top + 1))) +
        200 * ((n + 1) * (top + 1)) := by ring
  have hphases : (3 * n + 1) * ((n + 1) * (top + 1)) =
      3 * (n * ((n + 1) * (top + 1))) + (n + 1) * (top + 1) := by ring
  have hexpand : (n + 1) * (top + 1) = n * top + n + top + 1 := by ring
  have hartificial : (n + 1) * top = n * top + top := by ring
  have hway : n * (2 * m * top) = 2 * (m * (n * top)) := by ring
  have hpos : 0 ≤ n * top := by positivity
  have hle : m * (n * top) ≤ m * ((n + 1) * (top + 1)) :=
    mul_le_mul_of_nonneg_left (by omega) hm
  refine ⟨?_, ?_, ?_, ?_⟩ <;> omega

/-- A factor of capacity scaling that is read as it is given. -/
def Method.Sensible (method : Method) : Prop :=
  ∀ factor, method = .capacityScaling factor → (factor : Int) ≤ Amount.largest

/-- An engine stays in the range if the costs leave it enough room. -/
theorem Method.solve_ne_overflow {n m : Nat} {w : Width} {p : Problem n m (Word w)}
    {method : Method} {top : Int} (hmethod : method.Sensible) (hp : p.exact.Prepared)
    (htop : ∀ a : Fin m, |p.cost[a].val| ≤ top) (hnonneg : 0 ≤ top)
    (hroom : ((n : Int) + 1) * (2 * m + 3 * n + 200) * (top + 1) ≤ w.half) (fuel : Nat) :
    (method.solve fuel p).NoOverflow := by
  obtain ⟨hsimplex, hphases, hcycles, hcapacity⟩ :=
    fits_of_room (Int.natCast_nonneg n) (Int.natCast_nonneg m) hnonneg hroom
  cases method with
  | networkSimplex rule =>
      exact NetworkSimplex.solve_ne_overflow htop hnonneg hp.amounts hp.tolerance_eq hsimplex
  | costScaling alpha =>
      exact CostScaling.solve_ne_overflow htop hnonneg hphases hp hcycles fuel alpha
  | capacityScaling factor =>
      exact CapacityScaling.solve_ne_overflow hp htop hnonneg hcapacity (hmethod factor rfl) fuel

namespace Configuration

variable {w cw : Width} (c : Configuration w (Word cw))

/-- The largest cost times the number of nodes times that of arcs and three times that of nodes,
each with some room to spare, fits the type that the engines compute in. -/
def Roomy : Prop :=
  ∃ top : Nat, (∀ a : Fin c.arcs, |(c.costAt a : Word cw).val| ≤ top) ∧
    (c.nodes + 1) * (2 * c.arcs + 3 * c.nodes + 200) * (top + 1) ≤ cw.wider.half

/-- No cost exceeds the range of its type, so a small graph is enough. -/
theorem roomy_of_size
    (h : (c.nodes + 1) * (2 * c.arcs + 3 * c.nodes + 200) * (cw.half + 1) ≤ cw.wider.half) :
    c.Roomy :=
  ⟨cw.half, fun a => c.abs_costAt_le a, h⟩

/-- The arcs without an upper bound cost no more together than all arcs can. -/
theorem expense_uncappedArcs_le {top : Int}
    (htop : ∀ a : Fin c.arcs, |(c.costAt a : Word cw).val| ≤ top) (hnonneg : 0 ≤ top) :
    expense c.costed.exact c.uncappedArcs ≤ c.arcs * top := by
  have hcost : ∀ a, |c.costed.exact.cost a| ≤ top := htop
  have hsum : expense c.costed.exact c.uncappedArcs ≤ c.uncappedArcs.length * top := by
    simpa [expense] using List.sum_le_card_nsmul
      (c.uncappedArcs.map fun a => |c.costed.exact.cost a|) top (by simpa using fun a _ => hcost a)
  have hlength : c.uncappedArcs.length ≤ c.arcs := by
    simpa [uncappedArcs] using
      List.length_filter_le (fun a => (c.upperAt a).isNone) (List.finRange c.arcs)
  exact hsum.trans (mul_le_mul_of_nonneg_right (by omega) hnonneg)

/-- What a preparation computes from the costs fits if distances over all arcs do. -/
theorem costOperations_fit_of_le {top : Int}
    (htop : ∀ a : Fin c.arcs, |(c.costAt a : Word cw).val| ≤ top) (hnonneg : 0 ≤ top)
    (hfits : c.nodes * (2 * c.arcs * top) + top < cw.wider.half) :
    ∀ op ∈ (c.costOperations : List (CostOperation (Word cw.wider))), op.Fits := by
  let _ := ExactCosts.ofWidth cw.wider
  have harcs : 0 ≤ (c.nodes : Int) * (c.arcs * top) := by positivity
  have hdouble : (c.nodes : Int) * (2 * c.arcs * top) = 2 * (c.nodes * (c.arcs * top)) := by ring
  have hexpense : (c.nodes : Int) * expense c.costed.exact c.uncappedArcs ≤
      c.nodes * (c.arcs * top) :=
    mul_le_mul_of_nonneg_left (c.expense_uncappedArcs_le htop hnonneg) (by omega)
  refine List.forall_mem_append.mpr ⟨?_, List.forall_mem_cons.mpr ⟨?_, ?_⟩⟩
  · have hwide : ∀ a : Fin c.arcs, |(c.wideCosts[a] : Word cw.wider).val| ≤ top := fun a => by
      rw [wideCosts, Table.getElem_ofFn]
      exact htop a
    exact magnitudeOperations_fit hwide (by omega)
  · show cw.wider.Fits (0 * _)
    rw [zero_mul]
    exact cw.wider.fits_zero
  · rw [c.uncapped_eq]
    exact runOperations_fit c.val_costTolerance (by omega)

/-- Nothing else of a preparation can overflow. -/
theorem prepare_ne_overflow
    (hfits : ∀ op ∈ (c.costOperations : List (CostOperation (Word cw.wider))), op.Fits) :
    c.prepare.NoOverflow := by
  refine (Logged.noOverflow_ofExcept _).bind fun supply _ => ?_
  split
  · exact Logged.noOverflow_of_ok rfl
  · rintro ⟨⟩
  · refine Logged.NoOverflow.bind (fun h => ?_) fun total _ => ?_
    · rw [outcome_foldlM_liftM] at h
      exact Logged.noOverflow_ofExcept _ h
    split
    · exact Logged.noOverflow_of_ok rfl
    refine (Logged.noOverflow_ofExcept _).bind fun madeUp _ => ?_
    simp only
    split
    · rintro ⟨⟩
    · have hrange : Scalar.inRange c.costOperations ≠ .error .overflow :=
        Scalar.checked_ne_overflow fun op hop => fits_word_iff.mpr (hfits op hop)
      exact (Logged.noOverflow_ofRun hrange).bind fun _ _ => Logged.noOverflow_of_ok rfl

variable {c} {method : Method}

/-- Where there is room, all costs fit, whatever the engine. -/
theorem Roomy.costsFit (hroomy : c.Roomy) (hmethod : method.Sensible) (fuel : Nat) :
    c.CostsFit method fuel := by
  obtain ⟨top, htop, hroom⟩ := hroomy
  have hroom' : ((c.nodes : Int) + 1) * (2 * c.arcs + 3 * c.nodes + 200) * (top + 1) ≤
      cw.wider.half := by exact_mod_cast hroom
  obtain ⟨-, -, hcycles, -⟩ :=
    fits_of_room (Int.natCast_nonneg c.nodes) (Int.natCast_nonneg c.arcs) (by omega) hroom'
  have hoperations := c.costOperations_fit_of_le htop (by omega) hcycles
  refine ⟨c.prepare_ne_overflow hoperations, fun p hp => ?_⟩
  have hcost : ∀ a : Fin c.arcs, |p.cost[a].val| ≤ top := fun a => by
    rw [val_cost_of_prepare hp]
    exact htop a
  exact Method.solve_ne_overflow hmethod (c.prepared_of_prepare hp) hcost (by omega) hroom' fuel

end Configuration

namespace Solver

variable {w cw : Width} {s : Solver w (Word cw)}

/-- Whatever the graph, the bounds, the costs, the supplies and the method are: either all that a
run computes from costs is in the range, and the run is the one with exact integers, event by event,
with the same verdict or refusal and the same solution, or it ends with an overflow. The latter does
not happen if the costs leave enough room. -/
theorem run_in_step (hcount : s.config.NodesCounted) (fuel : Nat) :
    (s.config.CostsFit s.method fuel →
        (@run w (Word cw) (Cost.exact cw) fuel).run s = (run fuel).run s) ∧
      (¬ s.config.CostsFit s.method fuel → ((run fuel).run s).1.outcome = .error .overflow) ∧
      (s.config.Roomy → s.method.Sensible → s.config.CostsFit s.method fuel) := by
  refine ⟨fun hfits => ?_, fun hnot => ?_, fun hroomy hmethod => hroomy.costsFit hmethod fuel⟩
  · rw [@run_eq w (Word cw) (Cost.exact cw), run_eq, hfits.solve_exact hcount]
  · rw [outcome_run, Configuration.solve_eq_overflow hnot]
    rfl

/-- Capacity scaling of `parallelArcs` finds with integers what it finds with words. -/
theorem run_in_step_parallelArcs :
    Configuration.parallelArcs.NodesCounted ∧ Configuration.parallelArcs.Roomy ∧
      (Method.capacityScaling 0).Sensible ∧
      ((@run .bits64 (Word .bits64) (Cost.exact .bits64) 20).run
        (parallelSolver.setMethod (.capacityScaling 0))).1.outcome = .ok .optimal := by
  have hcount : Configuration.parallelArcs.NodesCounted := by decide
  have hroomy : Configuration.parallelArcs.Roomy := Configuration.roomy_of_size _ (by decide)
  have hmethod : (Method.capacityScaling 0).Sensible := by
    rintro factor ⟨⟩
    decide
  obtain ⟨hsame, -, hfits⟩ :=
    run_in_step (s := parallelSolver.setMethod (.capacityScaling 0)) hcount 20
  refine ⟨hcount, hroomy, hmethod, ?_⟩
  rw [hsame (hfits hroomy hmethod)]
  exact answers_parallelSolver.2.1

/-- One arc over which one unit has to go, at a cost of a third of the range of 128 bits. -/
def steepArc : Configuration .bits64 (Word .bits128) where
  graph := { id := ⟨0⟩, nodeCount := 2, ends := #[⟨0, 1⟩], below := Configuration.below_loneArc }
  upper := some { graph := ⟨0⟩, values := #[⟨1, Width.fits_one _⟩], fill := default }
  cost := some
    { graph := ⟨0⟩
      values := #[⟨56713727820156410577229101238628035241, by decide⟩]
      fill := default }
  supply := .map
    { graph := ⟨0⟩
      values := #[⟨1, Width.fits_one _⟩, ⟨-1, Width.fits_neg_one _⟩]
      fill := default }

/-- A solver of `steepArc`. -/
def steepSolver : Solver .bits64 (Word .bits128) where
  config := steepArc
  method := .networkSimplex .standard

/-- The cost of an artificial arc of `steepArc` is not refused, but the reduced cost of the arc is
lower than any word by what two artificial arcs cost. So the run ends before its first pivot, and
not with a refusal, where integers find the optimum. -/
theorem steepSolver_overflows :
    ((run 20).run steepSolver).1.outcome = .error .overflow ∧
      ((@run .bits64 (Word .bits128) (Cost.exact .bits128) 20).run steepSolver).1.outcome =
        .ok .optimal := by
  constructor
  · decide +kernel
  · decide +kernel

end Solver

end NetworkFlow
