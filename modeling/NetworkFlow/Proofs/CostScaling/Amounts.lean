import NetworkFlow.Proofs.CostScaling.Optimal
import NetworkFlow.Proofs.MaxFlow.Amounts

/-!
# Amounts of cost scaling are in range

A phase fills the residual arcs that are admissible, one after the other, and then discharges
the nodes of its queue; after the last one cycles are cancelled. `Reached` says which states the
phases pass, and where they stand then, `Residual.Reached` which flows the cancelling does.
The flow stays within the capacities and accounts for the excesses, so nothing that is added or
subtracted on the way leaves the range of the amounts.

## Main results

* `reached_refine`, `reached_phases`, `Residual.reached_cancelNegativeCycles`: no other states are
  passed.
* `Reached.sound`, `Residual.Reached.within`: what all of them have in common.
* `FormsAmount.fits`, `Holds.abs_le`: what is computed from amounts is one, and no node holds more
  than its load.
-/

namespace NetworkFlow

variable {n m : Nat} {α : Type} [Scalar α]

namespace Residual

/-- The flows that cancelling negative cycles passes. -/
inductive Reached (p : Problem n m α) (flow : Table Int m) : Cancelling m → Prop where
  | start : Reached p flow { flow, cancelled := 0 }
  | cancel {s s' : Cancelling m} (h : Reached p flow s) (hstep : cancelOne p s = .next s') :
      Reached p flow s'

variable {p : Problem n m α} {flow : Table Int m} {s : Cancelling m}

/-- The loop passes no other flows. -/
theorem reached_cancelNegativeCycles {fuel : Nat}
    (h : cancelNegativeCycles p fuel flow = .ok s) : Reached p flow s := by
  refine iterate_invariant (P := Reached p flow) (Q := Reached p flow) ?_ ?_ .start h
  · exact fun s₁ s₂ h₁ hstep => h₁.cancel (Scalar.checked_eq_ok.mp hstep).2
  · intro s₁ s₂ h₁ hstep
    rwa [cancelOne_ends (Scalar.checked_eq_ok.mp hstep).2]

theorem Reached.within (hflow : p.Within flow) (h : Reached p flow s) : p.Within s.flow := by
  induction h with
  | start => exact hflow
  | cancel _ hstep ih => exact (cancelOne_within ih hstep).1

/-- The balances stay what they were. -/
theorem Reached.balanced (hflow : p.Within flow) (h : Reached p flow s) (v : Fin n) :
    p.outflow s.flow v = p.outflow flow v := by
  induction h with
  | start => rfl
  | cancel h hstep ih => exact ((cancelOne_within (h.within hflow) hstep).2 v).trans ih

omit [Scalar α] in
/-- The flow stays within the capacities all the way around a cycle. -/
theorem within_sendAll_part {cycle done rest : List (ResidualArc m)} (hflow : p.Within flow)
    (hnodup : cycle.Nodup) (hpos : 0 ≤ bottleneck p flow cycle) (hsplit : cycle = done ++ rest) :
    p.Within (sendAll flow done (bottleneck p flow cycle)) := by
  subst hsplit
  exact hflow.sendAll hnodup.of_append_left hpos fun r hr =>
    bottleneck_le (List.mem_append_left rest hr)

/-- What is computed from amounts while cycles are cancelled: rooms, and the flows along a cycle. -/
inductive FormsAmount (p : Problem n m α) (flow : Table Int m) : Int → Prop where
  | room {s : Cancelling m} (h : Reached p flow s) (r : ResidualArc m) :
      FormsAmount p flow (p.room s.flow r)
  | sentAlong {s : Cancelling m} {r : ResidualArc m} {cycle done rest : List (ResidualArc m)}
      (h : Reached p flow s) (hcycle : relaxation p s.flow = .negativeCycle cycle)
      (hpos : 0 < bottleneck p s.flow cycle) (hsplit : cycle = done ++ r :: rest) :
      FormsAmount p flow (sendAlong (sendAll s.flow done (bottleneck p s.flow cycle)) r
        (bottleneck p s.flow cycle))[r.arc]

theorem FormsAmount.fits (hcap : ∀ a : Fin m, p.cap[a] ≤ Amount.largest) (hflow : p.Within flow)
    {x : Int} (h : FormsAmount p flow x) : Width.bits64.Fits x := by
  cases h with
  | room hs r => exact (hs.within hflow).fits_room (hcap r.arc)
  | @sentAlong s r cycle done rest hs hcycle hpos hsplit =>
      obtain ⟨-, hnodup, -⟩ := relaxation_closed hcycle
      have hpath : cycle = (done ++ [r]) ++ rest := by simp [hsplit]
      have hwithin := within_sendAll_part (hs.within hflow) hnodup hpos.le hpath
      rw [sendAll_append] at hwithin
      exact hwithin.fits_flow (hcap r.arc)

end Residual

namespace CostScaling

section Reach

/-- Where the phases stand, with the epsilon of the current one or, between two of them, of the last
one. -/
inductive Stage (n m : Nat) (α : Type) where
  /-- Between two phases. -/
  | settled (epsilon : α)
  /-- A phase begins, and these residual arcs are still to be looked at. -/
  | filling (epsilon : α) (rest : List (ResidualArc m))
  /-- Between two nodes. -/
  | waiting (epsilon : α)
  /-- A node is discharged. -/
  | discharging (epsilon : α) (u : Fin n)

/-- The states that the phases pass, from a feasible flow. -/
inductive Reached (p : Scaled n m α) (alpha : Nat) (largest : α) (flow : Table Int m) :
    Stage n m α → State n m α → Prop where
  | start : Reached p alpha largest flow (.settled largest)
      { flow, potential := .const n 0, excess := .const n 0, current := .const n 0, active := [] }
  /-- There is a first phase, and then one after each whose epsilon is above the finest. -/
  | refine {epsilon : α} {s : State n m α} (h : Reached p alpha largest flow (.settled epsilon) s)
      (hcoarse : epsilon = largest ∨ ¬ epsilon ≤ Scalar.finest largest) :
      Reached p alpha largest flow (.filling (nextEpsilon alpha epsilon) (ResidualArc.all m)) s
  | saturate {epsilon : α} {r : ResidualArc m} {rest : List (ResidualArc m)} {s : State n m α}
      (h : Reached p alpha largest flow (.filling epsilon (r :: rest)) s) :
      Reached p alpha largest flow (.filling epsilon rest) (saturate p s r)
  | filled {epsilon : α} {s : State n m α} (h : Reached p alpha largest flow (.filling epsilon []) s) :
      Reached p alpha largest flow (.waiting epsilon) { s with current := .const n 0 }
  | take {epsilon : α} {s : State n m α} {u : Fin n} {rest : List (Fin n)}
      (h : Reached p alpha largest flow (.waiting epsilon) s) (hactive : s.active = u :: rest) :
      Reached p alpha largest flow (.discharging epsilon u) { s with active := rest }
  | step {epsilon : α} {u : Fin n} {s s' : State n m α}
      (h : Reached p alpha largest flow (.discharging epsilon u) s)
      (hstep : dischargeStep p epsilon u s = .next s') :
      Reached p alpha largest flow (.discharging epsilon u) s'
  | finish {epsilon : α} {u : Fin n} {s s' : State n m α}
      (h : Reached p alpha largest flow (.discharging epsilon u) s)
      (hstep : dischargeStep p epsilon u s = .done (some s')) :
      Reached p alpha largest flow (.waiting epsilon) s'
  | settle {epsilon : α} {s : State n m α} (h : Reached p alpha largest flow (.waiting epsilon) s)
      (hactive : s.active = []) : Reached p alpha largest flow (.settled epsilon) s

variable {p : Scaled n m α} {alpha fuel : Nat} {largest epsilon : α} {flow : Table Int m}
  {s s' : State n m α} {u : Fin n}

theorem Reached.foldl_saturate {rest : List (ResidualArc m)}
    (h : Reached p alpha largest flow (.filling epsilon rest) s) :
    Reached p alpha largest flow (.waiting epsilon)
      { rest.foldl (CostScaling.saturate p) s with current := .const n 0 } := by
  induction rest generalizing s with
  | nil => exact h.filled
  | cons r rest ih => exact ih h.saturate

theorem reached_discharge (h : Reached p alpha largest flow (.discharging epsilon u) s)
    (hdischarge : discharge p fuel epsilon s u = .ok (some s')) :
    Reached p alpha largest flow (.waiting epsilon) s' := by
  refine iterate_invariant (P := Reached p alpha largest flow (.discharging epsilon u))
    (Q := fun o => ∀ s', o = some s' → Reached p alpha largest flow (.waiting epsilon) s')
    ?_ ?_ h hdischarge s' rfl
  · exact fun s₁ s₂ h₁ hstep => h₁.step (Scalar.checked_eq_ok.mp hstep).2
  · rintro s₁ o h₁ hstep s' rfl
    exact h₁.finish (Scalar.checked_eq_ok.mp hstep).2

theorem reached_queueStep (h : Reached p alpha largest flow (.waiting epsilon) s)
    (hstep : queueStep p fuel epsilon s = .ok (.next s')) :
    Reached p alpha largest flow (.waiting epsilon) s' := by
  rcases queueStep_cases hstep with
    ⟨-, ⟨⟩⟩ | ⟨u, rest, _, hactive, hdischarge, ⟨-, ⟨⟩⟩ | ⟨_, rfl, ⟨⟩⟩⟩
  exact reached_discharge (h.take hactive) hdischarge

/-- A phase passes no other states. -/
theorem reached_refine (h : Reached p alpha largest flow (.settled epsilon) s)
    (hcoarse : epsilon = largest ∨ ¬ epsilon ≤ Scalar.finest largest)
    (hrefine : refine p fuel (nextEpsilon alpha epsilon) s = .ok (some s')) :
    Reached p alpha largest flow (.settled (nextEpsilon alpha epsilon)) s' := by
  refine iterate_invariant
    (P := Reached p alpha largest flow (.waiting (nextEpsilon alpha epsilon)))
    (Q := fun o => ∀ s', o = some s' →
      Reached p alpha largest flow (.settled (nextEpsilon alpha epsilon)) s')
    (fun _ _ h₁ hstep => reached_queueStep h₁ hstep) ?_ (h.refine hcoarse).foldl_saturate
    (refine_eq_ok.mp hrefine).2 s' rfl
  rintro s₁ o h₁ hstep s' rfl
  rcases queueStep_cases hstep with
    ⟨hactive, ⟨⟩⟩ | ⟨_, _, _, -, -, ⟨-, ⟨⟩⟩ | ⟨_, -, ⟨⟩⟩⟩
  exact h₁.settle hactive

/-- A state between two phases, from which there is another one. -/
def Pending (p : Scaled n m α) (alpha : Nat) (largest : α) (flow : Table Int m) (s : Phase n m α) :
    Prop :=
  Reached p alpha largest flow (.settled s.epsilon) s.state ∧
    (s.epsilon = largest ∨ ¬ s.epsilon ≤ Scalar.finest largest)

theorem pending_start : Pending p alpha largest flow
    { state := { flow, potential := .const n 0, excess := .const n 0, current := .const n 0, active := [] }
      epsilon := largest, count := 0 } :=
  ⟨.start, Or.inl rfl⟩

/-- A phase leads to another one, or to a state that is passed. -/
theorem Pending.phaseStep {s : Phase n m α} (h : Pending p alpha largest flow s)
    {o : Step (Phase n m α) (Option (Phase n m α))}
    (hstep : phaseStep p fuel alpha (Scalar.finest largest) s = .ok o) :
    (∀ s', o = .next s' → Pending p alpha largest flow s') ∧ ∀ s', o = .done (some s') →
      Reached p alpha largest flow (.settled s'.epsilon) s'.state := by
  rcases phaseStep_cases hstep with ⟨-, rfl⟩ | ⟨s', hrefine, hnext, -, hends⟩
  · exact ⟨nofun, nofun⟩
  · rw [hnext] at hrefine
    have hreached := reached_refine h.1 h.2 hrefine
    rw [← hnext] at hreached
    rcases hends with ⟨rfl, hcoarse⟩ | ⟨rfl, -⟩
    · refine ⟨?_, nofun⟩
      rintro _ ⟨⟩
      exact ⟨hreached, Or.inr hcoarse⟩
    · refine ⟨nofun, ?_⟩
      rintro _ ⟨⟩
      exact hreached

/-- The phases end in a state that they have passed. -/
theorem reached_phases {last : Phase n m α}
    (h : phases p fuel alpha largest flow = .ok (some last)) :
    Reached p alpha largest flow (.settled last.epsilon) last.state := by
  refine iterate_invariant (P := Pending p alpha largest flow)
    (Q := fun o => ∀ last, o = some last →
      Reached p alpha largest flow (.settled last.epsilon) last.state)
    (fun s s' hs hstep => (hs.phaseStep hstep).1 s' rfl) ?_ pending_start h last rfl
  rintro s o hs hstep last rfl
  exact (hs.phaseStep hstep).2 last rfl

end Reach

section Range

variable {p : Scaled n m α} {alpha : Nat} {largest : α} {flow : Table Int m} {s : State n m α}
  {stage : Stage n m α} {x : Int}

/-- The node that is discharged. -/
def Stage.Busy : Stage n m α → Fin n → Prop
  | .discharging _ u => (· = u)
  | _ => fun _ => False

/-- The states of the phases are sound, and the nodes with an excess wait. -/
theorem Reached.sound (hflow : p.amounts.Feasible flow) (h : Reached p alpha largest flow stage s) :
    Sound p s ∧ WaitsBut stage.Busy s := by
  induction h with
  | start =>
      have hsettled := settled_start hflow (.const n 0)
      exact ⟨hsettled.toSound, hsettled.waits⟩
  | refine _ _ ih => exact ih
  | saturate _ ih => exact ih.1.saturate ih.2 _
  | filled _ ih => exact ⟨⟨ih.1.within, ih.1.balanced⟩, ih.2⟩
  | take _ hactive ih => exact ih.1.pop ih.2 hactive
  | step _ hstep ih => exact sound_dischargeStep ih.1 ih.2 hstep
  | finish _ hstep ih =>
      obtain ⟨rfl, hle⟩ := dischargeStep_done hstep
      exact ⟨ih.1, WaitsBut.discharged ih.2 hle⟩
  | settle _ _ ih => exact ih

/-- What is computed from amounts in the phases: rooms, and what is moved when a residual arc is
filled or a node pushes. -/
inductive PhasesForm (p : Scaled n m α) (alpha : Nat) (largest : α) (flow : Table Int m) :
    Int → Prop where
  | room {stage : Stage n m α} {s : State n m α} (h : Reached p alpha largest flow stage s)
      (r : ResidualArc m) : PhasesForm p alpha largest flow (p.room s.flow r)
  | filled {epsilon : α} {r : ResidualArc m} {rest : List (ResidualArc m)} {s : State n m α}
      {x : Int} (h : Reached p alpha largest flow (.filling epsilon (r :: rest)) s)
      (hx : p.Moves s.flow s.excess r (p.room s.flow r) x) : PhasesForm p alpha largest flow x
  | pushed {epsilon : α} {u : Fin n} {r : ResidualArc m} {s : State n m α} {x : Int}
      (h : Reached p alpha largest flow (.discharging epsilon u) s) (hexcess : 0 < s.excess[u])
      (hr : p.rows[u][s.current[u]]? = some r)
      (hx : p.Moves s.flow s.excess r (min s.excess[u] (p.room s.flow r)) x) :
      PhasesForm p alpha largest flow x

theorem Reached.abs_excess_le (hflow : p.amounts.Feasible flow)
    (h : Reached p alpha largest flow stage s) (v : Fin n) : |s.excess[v]| ≤ p.load v :=
  Problem.abs_held_le (h.sound hflow).1.within ((h.sound hflow).1.balanced v)

theorem PhasesForm.fits (hp : p.amounts.Prepared) (hflow : p.amounts.Feasible flow)
    (h : PhasesForm p alpha largest flow x) : Width.bits64.Fits x := by
  have hlimit : Amount.loadLimit ≤ Amount.largest := by decide
  have hexcess : ∀ {stage s}, Reached p alpha largest flow stage s → ∀ v : Fin n,
      |s.excess[v]| ≤ Amount.loadLimit :=
    fun hs v => (hs.abs_excess_le hflow v).trans (hp.load_le v)
  cases h with
  | room hs r => exact (hs.sound hflow).1.within.fits_room ((hp.cap_le r.arc).trans hlimit)
  | @filled epsilon r rest s _ hs hx =>
      have hwithin := (hs.sound hflow).1.within
      exact hx.fits hwithin (hp.cap_le r.arc) (hexcess hs) (hwithin.room_nonneg r) le_rfl
  | @pushed epsilon u r s _ hs hpos _ hx =>
      have hwithin := (hs.sound hflow).1.within
      exact hx.fits hwithin (hp.cap_le r.arc) (hexcess hs)
        (le_min hpos.le (hwithin.room_nonneg r)) (min_le_right _ _)

end Range

section Solve

/-- The problem with its scaled costs. -/
def scaled (p : Problem n m α) (scaledCost : Table α m) : Scaled n m α :=
  { p with rows := p.rows, scaledCost }

/-- What cost scaling computes from amounts: while it looks for a feasible flow, in its phases and
while it cancels cycles. -/
inductive FormsAmount (p : Problem n m α) (alpha : Nat) : Int → Prop where
  | searched {x : Int} (h : p.SearchForms x) : FormsAmount p alpha x
  | refined {fuel : Nat} {flow : Table Int m} {scaledCost : Table α m} {x : Int}
      (hflow : (feasibleFlow fuel p).outcome = .ok (some flow))
      (hscaled : scaledCosts p = .ok scaledCost)
      (h : PhasesForm (scaled p scaledCost) alpha (Scalar.maxMagnitude 0 scaledCost.toList) flow x) :
      FormsAmount p alpha x
  | cancelled {fuel fuel' : Nat} {flow flow' : Table Int m} {x : Int}
      (hflow : (feasibleFlow fuel p).outcome = .ok (some flow))
      (hscaled : (scaledFlow fuel' p alpha flow).outcome = .ok (some flow'))
      (h : Residual.FormsAmount p flow' x) : FormsAmount p alpha x

/-- The excesses of the nodes while cost scaling looks for a feasible flow and in its phases. -/
inductive Holds (p : Problem n m α) (alpha : Nat) : Fin n → Int → Prop where
  | searched {stage : MaxFlow.Stage (n + 2) (m + (SupplyArc.ofSupplies p.supply).size)}
      {s : MaxFlow.State (n + 2) (m + (SupplyArc.ofSupplies p.supply).size)}
      (h : MaxFlow.Reached p.search stage s) (v : Fin n) :
      Holds p alpha v s.excess[SupplyArc.inner v]
  | refined {fuel : Nat} {flow : Table Int m} {scaledCost : Table α m} {stage : Stage n m α}
      {s : State n m α} (hflow : (feasibleFlow fuel p).outcome = .ok (some flow))
      (hscaled : scaledCosts p = .ok scaledCost)
      (h : Reached (scaled p scaledCost) alpha (Scalar.maxMagnitude 0 scaledCost.toList) flow stage s)
      (v : Fin n) : Holds p alpha v s.excess[v]

variable {p : Problem n m α} {alpha : Nat} {x : Int}

omit [Scalar α] in
theorem feasible_of_feasibleFlow (hp : p.amounts.Prepared) {fuel : Nat} {flow : Table Int m}
    (h : (feasibleFlow fuel p).outcome = .ok (some flow)) : p.amounts.Feasible flow := by
  rcases feasibleFlow_spec (p := p.amounts) hp h with ⟨_, heq, hflow⟩ | ⟨heq, -⟩
  · cases heq
    exact hflow
  · cases heq

/-- The flow of an answer is the last one of those that cancelling cycles passes. -/
theorem reached_of_solve {fuel : Nat} {flow : Table Int m} {potential : Table α n}
    (h : (solve fuel p alpha).outcome = .ok (.feasible flow potential)) :
    ∃ flow₁ flow₂ s, (feasibleFlow fuel p).outcome = .ok (some flow₁) ∧
      (scaledFlow fuel p alpha flow₁).outcome = .ok (some flow₂) ∧
      Residual.Reached p flow₂ s ∧ s.flow = flow := by
  unfold solve at h
  obtain ⟨first, hfirst, h⟩ := Logged.outcome_bind_eq_ok.mp h
  cases first with
  | none => cases h
  | some flow₁ =>
      obtain ⟨second, hsecond, h⟩ := Logged.outcome_bind_eq_ok.mp h
      cases second with
      | none => cases h
      | some flow₂ =>
          obtain ⟨last, hlast, h⟩ := Logged.outcome_bind_eq_ok.mp h
          have hreached :=
            Residual.reached_cancelNegativeCycles (Logged.outcome_ofRun_eq_ok.mp hlast)
          refine ⟨flow₁, flow₂, last, hfirst, hsecond, hreached, ?_⟩
          split at h <;> cases h <;> rfl

/-- What cost scaling computes from amounts is one. -/
theorem FormsAmount.fits (hp : p.amounts.Prepared) (h : FormsAmount p alpha x) :
    Width.bits64.Fits x := by
  cases h with
  | searched h => exact h.fits hp
  | @refined _ _ scaledCost _ hflow _ h =>
      exact h.fits (p := scaled p scaledCost) hp (feasible_of_feasibleFlow hp hflow)
  | cancelled hflow hscaled h =>
      have hfeasible : p.amounts.Feasible _ :=
        scaledFlow_feasible (p := p) hp.sum_supply (feasible_of_feasibleFlow hp hflow) hscaled
      exact h.fits (p := p) (fun a => (hp.cap_le a).trans (by decide)) hfeasible.within

/-- No node holds more than its load. -/
theorem Holds.abs_le (hp : p.amounts.Prepared) {v : Fin n} (h : Holds p alpha v x) :
    |x| ≤ p.load v := by
  cases h with
  | searched h => exact Problem.abs_held_inner_le hp h v
  | refined hflow _ h => exact h.abs_excess_le (feasible_of_feasibleFlow hp hflow) v

end Solve

end CostScaling

end NetworkFlow
