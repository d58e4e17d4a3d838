import NetworkFlow.Proofs.CapacityScaling.Amounts
import NetworkFlow.Proofs.CostScaling.Amounts
import NetworkFlow.Proofs.NetworkSimplex.Amounts
import NetworkFlow.Solver

/-!
# Amounts stay in range

Before a problem goes to an engine, the load of every node is checked: it is a quarter of the largest
amount at most. That one check covers all that the engines compute from flows, rooms and
excesses, in every state that they pass, whatever the costs are computed in. An excess and the
flow of an artificial arc stay within the load of their node.

The one sum that is not covered is what the super source of a feasibility search gives away; it is
checked when it is computed. A factor of capacity scaling that is not a signed 64-bit number would
make its delta negative.

## Main results

* `Method.passes_of_solve`: the states that are spoken of are those of the runs.
* `Configuration.amounts_in_range`: all that is computed from amounts is in range.
-/

namespace NetworkFlow

variable {n m : Nat} {α : Type} [Scalar α]

namespace Method

/-- Some state that a method passes on a problem has a flow. -/
def Passes (method : Method) (p : Problem n m α) (flow : Table Int m) : Prop :=
  match method with
  | .networkSimplex rule =>
      ∃ dear s, NetworkSimplex.Tableau.artificialCost p = .ok dear ∧
        NetworkSimplex.Reached p rule dear s ∧ NetworkSimplex.ownFlow s.basis = flow
  | .costScaling alpha =>
      ∃ fuel flow₁ flow₂ s, (feasibleFlow fuel p).outcome = .ok (some flow₁) ∧
        (CostScaling.scaledFlow fuel p alpha flow₁).outcome = .ok (some flow₂) ∧
        Residual.Reached p flow₂ s ∧ s.flow = flow
  | .capacityScaling factor =>
      ∃ stage st, CapacityScaling.Reached { p with rows := p.rows } factor stage st ∧ st.flow = flow

/-- A method computes a number from amounts in some state that it passes on a problem. -/
def FormsAmount (method : Method) (p : Problem n m α) (x : Int) : Prop :=
  match method with
  | .networkSimplex rule =>
      ∃ dear, NetworkSimplex.Tableau.artificialCost p = .ok dear ∧
        NetworkSimplex.FormsAmount p rule dear x
  | .costScaling alpha => CostScaling.FormsAmount p alpha x
  | .capacityScaling factor => CapacityScaling.FormsAmount { p with rows := p.rows } factor x

/-- In some state that a method passes on a problem, a number is the excess of a node or the flow of
its artificial arc. -/
def Holds (method : Method) (p : Problem n m α) (v : Fin n) (x : Int) : Prop :=
  match method with
  | .networkSimplex rule =>
      ∃ dear s, NetworkSimplex.Tableau.artificialCost p = .ok dear ∧
        NetworkSimplex.Reached p rule dear s ∧
        s.basis.flow[NetworkSimplex.artificial m v] = x
  | .costScaling alpha => CostScaling.Holds p alpha v x
  | .capacityScaling factor =>
      ∃ stage st, CapacityScaling.Reached { p with rows := p.rows } factor stage st ∧
        st.excess[v] = x

variable {method : Method} {p : Problem n m α}

/-- The flow of an answer is that of a state that the method passes. -/
theorem passes_of_solve {fuel : Nat} {flow : Table Int m} {potential : Table α n}
    (h : (method.solve fuel p).outcome = .ok (.feasible flow potential)) :
    method.Passes p flow := by
  cases method with
  | networkSimplex rule => exact NetworkSimplex.reached_of_solve h
  | costScaling alpha => exact ⟨fuel, CostScaling.reached_of_solve h⟩
  | capacityScaling factor =>
      obtain ⟨last, hrun, ⟨heq, -⟩ | ⟨heq, -⟩⟩ := CapacityScaling.solve_eq h <;> cases heq
      exact ⟨_, last.state, CapacityScaling.reached_run rfl hrun, rfl⟩

/-- What a method computes from amounts is one. -/
theorem fits_of_formsAmount (hp : p.amounts.Prepared)
    (hfactor : ∀ factor, method = .capacityScaling factor → (factor : Int) ≤ Amount.largest)
    {x : Int} (h : method.FormsAmount p x) : Width.bits64.Fits x := by
  cases method with
  | networkSimplex rule =>
      obtain ⟨dear, -, h⟩ := h
      exact h.fits hp
  | costScaling alpha => exact CostScaling.FormsAmount.fits hp h
  | capacityScaling factor =>
      exact CapacityScaling.FormsAmount.fits (p := { p with rows := p.rows }) hp rfl
        (hfactor factor rfl) h

/-- No excess and no flow of an artificial arc exceeds the load of its node. -/
theorem abs_le_load (hp : p.amounts.Prepared)
    (hfactor : ∀ factor, method = .capacityScaling factor → (factor : Int) ≤ Amount.largest)
    {v : Fin n} {x : Int} (h : method.Holds p v x) : |x| ≤ p.load v := by
  cases method with
  | networkSimplex rule =>
      obtain ⟨dear, s, -, hs, rfl⟩ := h
      exact (hs.consistent hp).abs_artificial_le v
  | costScaling alpha => exact CostScaling.Holds.abs_le hp h
  | capacityScaling factor =>
      obtain ⟨stage, st, hst, rfl⟩ := h
      exact (hst.sound (p := { p with rows := p.rows }) hp rfl (hfactor factor rfl)).1.abs_excess_le v

end Method

namespace Configuration

variable {w : Width} {β : Type} [Cost β] {c : Configuration w β}
  {p : Problem c.nodes c.arcs (Cost.Wide β)}

/-- On a problem that was prepared, in every state that a method passes, all that it computes from
amounts is in range, and no excess and no flow of an artificial arc exceeds the load of its
node, which is a quarter of the largest amount at most. The flow of an answer is that of
such a state. -/
theorem amounts_in_range (hp : c.prepare.outcome = .ok (some p)) (method : Method)
    (hfactor : ∀ factor, method = .capacityScaling factor → (factor : Int) ≤ Amount.largest) :
    (∀ x, method.FormsAmount p x → Width.bits64.Fits x) ∧
      (∀ v x, method.Holds p v x → |x| ≤ p.load v ∧ p.load v ≤ Amount.loadLimit) ∧
      ∀ fuel flow potential, (method.solve fuel p).outcome = .ok (.feasible flow potential) →
        method.Passes p flow := by
  have hprepared := c.prepared_amounts hp
  refine ⟨fun x h => Method.fits_of_formsAmount hprepared hfactor h, fun v x h => ?_,
    fun fuel flow potential h => Method.passes_of_solve h⟩
  exact ⟨Method.abs_le_load hprepared hfactor h, hprepared.load_le v⟩

/-- What every method computes from the amounts of two parallel arcs is in range. -/
theorem amounts_in_range_parallelArcs :
    parallelArcs.prepare.outcome = .ok (some parallelProblem) ∧ ((4 : Nat) : Int) ≤ Amount.largest ∧
      (∀ x, (Method.capacityScaling 4).FormsAmount parallelProblem x → Width.bits64.Fits x) ∧
      (∀ v x, (Method.capacityScaling 4).Holds parallelProblem v x →
        |x| ≤ parallelProblem.load v ∧ parallelProblem.load v ≤ Amount.loadLimit) ∧
      ∀ fuel flow potential, ((Method.capacityScaling 4).solve fuel parallelProblem).outcome =
        .ok (.feasible flow potential) → (Method.capacityScaling 4).Passes parallelProblem flow := by
  have hfactor : ∀ factor, Method.capacityScaling 4 = .capacityScaling factor →
      (factor : Int) ≤ Amount.largest := by
    intro factor h
    cases h
    decide
  exact ⟨prepare_parallelArcs, by decide, amounts_in_range prepare_parallelArcs _ hfactor⟩

end Configuration

end NetworkFlow
