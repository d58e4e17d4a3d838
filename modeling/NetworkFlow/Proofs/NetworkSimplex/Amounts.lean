import NetworkFlow.Proofs.Loads
import NetworkFlow.Proofs.NetworkSimplex.Run
import NetworkFlow.Proofs.NetworkSimplex.Start

/-!
# Amounts of the network simplex are in range

An artificial arc has the largest amount as its capacity, so only the flow on it keeps what is
computed there in range. What leaves a node meets its supply at every pivot, and what the
arcs of the problem carry is within their capacities: the artificial arc of a node carries the
rest, which is no more than the load of the node.

## Main results

* `reached_run`, `reached_of_solve`: a run passes no other states.
* `Consistent.abs_artificial_le`: an artificial arc carries no more than the load of its node.
* `FormsAmount.fits`: what is computed from amounts is one.
-/

namespace NetworkFlow.NetworkSimplex

variable {n m : Nat} {α : Type} [Scalar α]

/-- The states that a run passes. -/
inductive Reached (p : Problem n m α) (rule : PivotRule) (dear : α) : Progress n m α → Prop where
  | start : Reached p rule dear (firstProgress (Tableau.ofProblem p rule dear) p)
  | step {s s' : Progress n m α} (h : Reached p rule dear s)
      (hstep : pivotStep (Tableau.ofProblem p rule dear) s = .next s') : Reached p rule dear s'

variable {p : Problem n m α} {rule : PivotRule} {dear : α} {s : Progress n m α}

/-- A run ends in a state that it has passed. -/
theorem reached_run {fuel : Nat} (h : Reached p rule dear s) {s' : Progress n m α}
    (hrun : run (Tableau.ofProblem p rule dear) fuel s = .ok (.optimal s')) :
    Reached p rule dear s' := by
  refine iterate_invariant (P := Reached p rule dear)
    (Q := fun o => ∀ s', o = .optimal s' → Reached p rule dear s') ?_ ?_ h hrun s' rfl
  · exact fun s₁ s₂ h₁ hstep => h₁.step (Scalar.checked_eq_ok.mp hstep).2
  · rintro s₁ o h₁ hstep s₂ rfl
    rw [(findEntering_of_pivotStep (Scalar.checked_eq_ok.mp hstep).2).1]
    exact h₁

/-- The flow of an answer is that of a state that the run has passed. -/
theorem reached_of_solve {fuel : Nat} {flow : Table Int m} {potential : Table α n}
    (h : (solve fuel p rule).outcome = .ok (.feasible flow potential)) :
    ∃ dear s, Tableau.artificialCost p = .ok dear ∧ Reached p rule dear s ∧
      ownFlow s.basis = flow := by
  obtain ⟨dear, finish, hdear, hrun, hanswer⟩ := of_solve h
  refine ⟨dear, ?_⟩
  cases finish with
  | unbounded s => cases hanswer
  | optimal s =>
      refine ⟨s, hdear, reached_run .start hrun, ?_⟩
      cases huses : usesArtificial s.basis with
      | true => simp [Finish.answer, huses] at hanswer
      | false =>
          simp only [Finish.answer, huses, Bool.false_eq_true, if_false, Outcome.feasible.injEq]
            at hanswer
          exact hanswer.1.symm

theorem Reached.consistent (hp : p.amounts.Prepared) (h : Reached p rule dear s) :
    Consistent (Tableau.ofProblem p rule dear) p.supply s.basis := by
  induction h with
  | start => exact consistent_start hp rule dear
  | step _ hstep ih => exact consistent_pivotStep ih hstep

/-- An artificial arc carries no more than the load of its node. -/
theorem Consistent.abs_artificial_le {b : Basis n m α}
    (h : Consistent (Tableau.ofProblem p rule dear) p.supply b) (v : Fin n) :
    |b.flow[artificial m v]| ≤ p.load v := by
  have hwithin : p.Within (ownPart b.flow) := by
    intro a
    have := h.within (Fin.castAdd n a)
    rwa [Tableau.cap_castAdd, ← getElem_ownPart] at this
  have hbalance := h.balanced v
  rw [Tableau.outflow_below] at hbalance
  by_cases hdemand : p.supply[v] < 0
  · rw [if_pos hdemand] at hbalance
    rw [← abs_neg]
    exact Problem.abs_held_le hwithin (by omega)
  · rw [if_neg hdemand] at hbalance
    exact Problem.abs_held_le hwithin (by omega)

/-- What is computed from amounts: the flow with which the artificial arc of a node with a demand
starts, rooms, and the flows along the cycle of a pivot. -/
inductive FormsAmount (p : Problem n m α) (rule : PivotRule) (dear : α) : Int → Prop where
  | demanded {v : Fin n} (h : p.supply[v] < 0) : FormsAmount p rule dear (-p.supply[v])
  | room {s : Progress n m α} (h : Reached p rule dear s) (r : ResidualArc (m + n)) :
      FormsAmount p rule dear ((Tableau.ofProblem p rule dear).room s.basis.flow r)
  | shifted {s : Progress n m α} {a : Fin (m + n)} {r : ResidualArc (m + n)}
      {done rest : List (ResidualArc (m + n))} (h : Reached p rule dear s)
      (ha : (findEntering (Tableau.ofProblem p rule dear) s.basis).1 = some a)
      (hcycle : cyclePath (Tableau.ofProblem p rule dear) s.basis a = done ++ r :: rest) :
      FormsAmount p rule dear
        (sendAlong
          (sendAll s.basis.flow done (leaving (Tableau.ofProblem p rule dear) s.basis a).amount) r
          (leaving (Tableau.ofProblem p rule dear) s.basis a).amount)[r.arc]

omit [Scalar α] in
/-- The capacity of every arc of the tableau is an amount. -/
theorem cap_le_largest (hp : p.amounts.Prepared) (a : Fin (m + n)) :
    (Tableau.ofProblem p rule dear).cap[a] ≤ Amount.largest := by
  induction a using Fin.addCases with
  | left a =>
      rw [Tableau.cap_castAdd]
      exact (hp.cap_le a).trans (by decide)
  | right v =>
      rw [← artificial, Tableau.cap_artificial]
      exact le_refl _

/-- What is computed from amounts is one. -/
theorem FormsAmount.fits (hp : p.amounts.Prepared) {x : Int} (h : FormsAmount p rule dear x) :
    Width.bits64.Fits x := by
  cases h with
  | @demanded v _ =>
      apply MaxFlow.fits_of_abs_le
      rw [abs_neg]
      exact (hp.abs_supply_le v).trans (by decide)
  | room hs r => exact (hs.consistent hp).within.fits_room (cap_le_largest hp r.arc)
  | @shifted s a r done rest hs ha hcycle =>
      have hconsistent := hs.consistent hp
      have htree := state_ne_tree_of_violation (isSome_of_findEntering ha)
      have hsplit : cyclePath (Tableau.ofProblem p rule dear) s.basis a = (done ++ [r]) ++ rest := by
        simp [hcycle]
      have hnodup := (nodup_cyclePath hconsistent.toSpanning htree).of_map
      have hbegin := hconsistent.within.sendAll (hsplit ▸ hnodup).of_append_left
        (hconsistent.amount_nonneg htree) fun r' hr' =>
          ((hconsistent.leaving_spec htree).2 r' (hsplit ▸ List.mem_append_left rest hr')).1
      rw [sendAll_append] at hbegin
      exact Network.Within.fits_flow hbegin (cap_le_largest hp r.arc)

end NetworkFlow.NetworkSimplex
