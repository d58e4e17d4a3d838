import NetworkFlow.NetworkSimplex.Solve
import NetworkFlow.Proofs.NetworkSimplex.Entering
import NetworkFlow.Proofs.NetworkSimplex.Start

/-!
# The run of pivots

Every step of the run is a pivot on an arc that violates optimality, or the end.
What a pivot keeps therefore holds of every basis that the run passes.

## Main results

* `pivotStep_cases`, `pivotStep_pivots`, `pivotStep_next`: what a step of the run can be.
* `consistent_run`: a run that ends with an optimum ends with a consistent basis in
  which no entering arc is found.
-/

namespace NetworkFlow.NetworkSimplex

open scoped ExactCosts

variable {n m : Nat} {supply : Table Int n}

section Basis

variable {α : Type} [Scalar α] {t : Tableau n m α}

theorem Consistent.with_rule {b : Basis n m α} (h : Consistent t supply b) (bland : Bool)
    (cursor : Nat) : Consistent t supply { b with bland := bland, cursor := cursor } :=
  ⟨⟨⟨h.joins, h.mem_children, h.linked, h.exists_depths⟩, h.depth_root, h.potential_root,
    h.settled, h.state_tree⟩, h.within, h.lower_eq, h.upper_eq, h.balanced⟩

theorem Consistent.with_cursor {b : Basis n m α} (h : Consistent t supply b) (cursor : Nat) :
    Consistent t supply { b with cursor := cursor } :=
  h.with_rule b.bland cursor

/-- An arc of the tree does not violate optimality. -/
theorem state_ne_tree_of_violation {b : Basis n m α} {a : Fin (m + n)}
    (h : (violation t b a).isSome) : b.state[a] ≠ .tree := by
  intro hs
  simp [violation, hs] at h

/-- What a step of the run does: it ends with the basis in which no arc is found, or with an arc on
which the flow can change without bound, and otherwise goes on from the pivot on the arc found. -/
inductive PivotCase (t : Tableau n m α) (s : Progress n m α) :
    Step (Progress n m α) (Finish n m α) → Prop where
  | optimal (hfind : (findEntering t s.basis).1 = none) : PivotCase t s (.done (.optimal s))
  | unbounded {a : Fin (m + n)} (hfind : (findEntering t s.basis).1 = some a)
      (hpivot : pivot t { s.basis with cursor := (findEntering t s.basis).2 } a = .unbounded) :
      PivotCase t s (.done (.unbounded s))
  | progress {a : Fin (m + n)} {b : Basis n m α} (hfind : (findEntering t s.basis).1 = some a)
      (hpivot : pivot t { s.basis with cursor := (findEntering t s.basis).2 } a = .progress b) :
      PivotCase t s (.next { s with basis := b, pivots := s.pivots + 1, degenerate := 0 })
  | degenerate {a : Fin (m + n)} {b : Basis n m α} (hfind : (findEntering t s.basis).1 = some a)
      (hpivot : pivot t { s.basis with cursor := (findEntering t s.basis).2 } a = .degenerate b) :
      PivotCase t s (.next (countDegenerate s b))

theorem pivotStep_cases (t : Tableau n m α) (s : Progress n m α) :
    PivotCase t s (pivotStep t s) := by
  unfold pivotStep
  cases hfind : (findEntering t s.basis).1 with
  | none =>
      simp only [hfind]
      exact .optimal hfind
  | some a =>
      simp only [hfind]
      split
      · exact .unbounded hfind ‹_›
      · exact .progress hfind ‹_›
      · exact .degenerate hfind ‹_›

theorem Consistent.pivot_progress {b b' : Basis n m α} {a : Fin (m + n)}
    (h : Consistent t supply b) (ha : b.state[a] ≠ .tree) (hpivot : pivot t b a = .progress b') :
    0 < (leaving t b a).amount ∧ b' = NetworkSimplex.pivoted t b a := by
  have hnonneg := h.amount_nonneg ha
  rw [pivot_eq h ha] at hpivot
  split_ifs at hpivot
  cases hpivot
  exact ⟨by omega, rfl⟩

theorem Consistent.pivot_degenerate {b b' : Basis n m α} {a : Fin (m + n)}
    (h : Consistent t supply b) (ha : b.state[a] ≠ .tree) (hpivot : pivot t b a = .degenerate b') :
    (leaving t b a).amount = 0 ∧ b' = NetworkSimplex.pivoted t b a := by
  rw [pivot_eq h ha] at hpivot
  split_ifs at hpivot with _ hzero
  cases hpivot
  exact ⟨hzero, rfl⟩

/-- A step that does not end the run is a pivot on the arc that is found. -/
theorem pivotStep_pivots {s s' : Progress n m α} (hc : Consistent t supply s.basis)
    (h : pivotStep t s = .next s') :
    ∃ a cursor, (findEntering t s.basis).1 = some a ∧ s.basis.state[a] ≠ .tree ∧
      ((0 < (leaving t s.basis a).amount ∧ s' =
          { s with
            basis := pivoted t { s.basis with cursor := cursor } a
            pivots := s.pivots + 1
            degenerate := 0 }) ∨
        ((leaving t s.basis a).amount = 0 ∧
          s' = countDegenerate s (pivoted t { s.basis with cursor := cursor } a))) := by
  have hcases := pivotStep_cases t s
  rw [h] at hcases
  have hc' := hc.with_cursor (findEntering t s.basis).2
  cases hcases with
  | progress hfind hpivot =>
      have ha := state_ne_tree_of_violation (isSome_of_findEntering hfind)
      obtain ⟨hpos, rfl⟩ := hc'.pivot_progress ha hpivot
      rw [leaving_with_cursor] at hpos
      exact ⟨_, _, hfind, ha, Or.inl ⟨hpos, rfl⟩⟩
  | degenerate hfind hpivot =>
      have ha := state_ne_tree_of_violation (isSome_of_findEntering hfind)
      obtain ⟨hzero, rfl⟩ := hc'.pivot_degenerate ha hpivot
      rw [leaving_with_cursor] at hzero
      exact ⟨_, _, hfind, ha, Or.inr ⟨hzero, rfl⟩⟩

/-- A step of the run keeps the basis consistent. -/
theorem consistent_pivotStep {s s' : Progress n m α} (hc : Consistent t supply s.basis)
    (h : pivotStep t s = .next s') : Consistent t supply s'.basis := by
  obtain ⟨a, cursor, -, ha, hs⟩ := pivotStep_pivots hc h
  have hpivoted := (hc.with_cursor cursor).pivoted ha
  rcases hs with ⟨-, rfl⟩ | ⟨-, rfl⟩
  · exact hpivoted
  · exact hpivoted.with_rule _ _

/-- The run ends with the basis in which no arc is found. -/
theorem findEntering_of_pivotStep {s s' : Progress n m α} (h : pivotStep t s = .done (.optimal s')) :
    s' = s ∧ (findEntering t s.basis).1 = none := by
  have hcases := pivotStep_cases t s
  rw [h] at hcases
  cases hcases with
  | optimal hfind => exact ⟨rfl, hfind⟩

/-- At the end of the run, the basis is consistent and no arc is found. -/
theorem consistent_run {fuel : Nat} {s s' : Progress n m α} (hc : Consistent t supply s.basis)
    (h : run t fuel s = .ok (.optimal s')) :
    Consistent t supply s'.basis ∧ (findEntering t s'.basis).1 = none := by
  have hrun := iterate_invariant (P := fun s : Progress n m α => Consistent t supply s.basis)
    (Q := fun o => ∀ s', o = .optimal s' →
      Consistent t supply s'.basis ∧ (findEntering t s'.basis).1 = none)
    (fun s s' hs hstep => consistent_pivotStep hs (Scalar.checked_eq_ok.mp hstep).2)
    (fun s o hs hstep s' ho => by
      subst ho
      obtain ⟨rfl, hnone⟩ := findEntering_of_pivotStep (Scalar.checked_eq_ok.mp hstep).2
      exact ⟨hs, hnone⟩)
    hc h
  exact hrun s' rfl

/-- The state in which the pivots begin. -/
def firstProgress (t : Tableau n m α) (p : Problem n m α) : Progress n m α :=
  { basis := Basis.start t p, pivots := 0, degenerate := 0, adopted := none }

/-- What the end of the pivots says about the problem. -/
def Finish.answer : Finish n m α → Outcome n m α
  | .unbounded _ => .unbounded
  | .optimal s =>
      if usesArtificial s.basis then .infeasible
      else .feasible (ownFlow s.basis) (ownPotential s.basis)

/-- What is left to do after the pivots. -/
def Finish.report : Finish n m α → Logged (Outcome n m α)
  | .unbounded s => do
      reportAdopted s
      return .unbounded
  | .optimal s => do
      reportAdopted s
      Logged.report (.pivotsDone s.pivots)
      if usesArtificial s.basis then return .infeasible
      return .feasible (ownFlow s.basis) (ownPotential s.basis)

omit [Scalar α] in
theorem Finish.outcome_report (finish : Finish n m α) :
    finish.report.outcome = .ok finish.answer := by
  have hadopted : ∀ s : Progress n m α, (reportAdopted s).outcome = .ok () := by
    intro s
    unfold reportAdopted
    split <;> rfl
  cases finish with
  | unbounded s => simp [report, answer, Logged.outcome_bind, hadopted, Except.bind]
  | optimal s =>
      cases huses : usesArtificial s.basis <;>
        simp [report, answer, Logged.outcome_bind, hadopted, huses, Except.bind]

theorem solve_eq (fuel : Nat) (p : Problem n m α) (rule : PivotRule) :
    solve fuel p rule = (do
      Scalar.inRange (Tableau.artificialCostOperations p)
      let dear ← Tableau.artificialCost p
      let t := Tableau.ofProblem p rule dear
      Scalar.inRange (Basis.startOperations t p)
      let finish ← Logged.ofRun (run t fuel (firstProgress t p))
      finish.report) := rfl

/-- Only the cost of the artificial arcs can be refused. -/
theorem refusesOnly_solve {p : Problem n m α} {rule : PivotRule} {fuel : Nat}
    {causes : Error → Prop}
    (h : ∀ cause, Tableau.artificialCost p = .error cause → causes cause) :
    (solve fuel p rule).RefusesOnly causes := by
  rw [solve_eq]
  refine (Logged.refusesOnly_ofRun _).bind fun _ _ => ?_
  refine (Logged.refusesOnly_ofExcept h).bind fun dear _ => ?_
  refine (Logged.refusesOnly_ofRun _).bind fun _ _ => ?_
  exact (Logged.refusesOnly_ofRun _).bind fun finish _ =>
    Logged.refusesOnly_of_ok finish.outcome_report

/-- The answer is read off the end of the run. -/
theorem of_solve {p : Problem n m α} {rule : PivotRule} {fuel : Nat} {o : Outcome n m α}
    (h : (solve fuel p rule).outcome = .ok o) :
    ∃ dear finish, Tableau.artificialCost p = .ok dear ∧
      run (Tableau.ofProblem p rule dear) fuel (firstProgress (Tableau.ofProblem p rule dear) p) =
        .ok finish ∧ o = finish.answer := by
  rw [solve_eq] at h
  obtain ⟨-, -, h⟩ := Logged.outcome_bind_eq_ok.mp h
  obtain ⟨dear, hdear, h⟩ := Logged.outcome_bind_eq_ok.mp h
  obtain ⟨-, -, h⟩ := Logged.outcome_bind_eq_ok.mp h
  obtain ⟨finish, hrun, h⟩ := Logged.outcome_bind_eq_ok.mp h
  rw [Finish.outcome_report] at h
  exact ⟨dear, finish, Logged.outcome_ofExcept_eq_ok.mp hdear, Logged.outcome_ofRun_eq_ok.mp hrun,
    (Except.ok.inj h).symm⟩

end Basis

variable [inst : ExactCosts] {t : Tableau n m Int}

theorem run_exact_eq (fuel : Nat) (s : Progress n m Int) :
    run t fuel s = iterate fuel (fun s => .ok (pivotStep t s)) s := by
  simp [run]

/-- If no entering arc is found, no arc violates optimality. -/
theorem not_violates_of_findEntering (htol : t.tolerance = 0) {b : Basis n m Int}
    (h : (findEntering t b).1 = none) (a : Fin (m + n)) : ¬ Violates t b a := by
  rw [← isSome_violation htol, findEntering_eq_none.mp h a]
  simp

/-- A step that does not end the run is a pivot on an arc that violates optimality,
the smallest one if the rule that cannot cycle is in force. -/
theorem pivotStep_next (htol : t.tolerance = 0) {s s' : Progress n m Int}
    (hc : Consistent t supply s.basis) (h : pivotStep t s = .next s') :
    ∃ a cursor, (findEntering t s.basis).1 = some a ∧ Violates t s.basis a ∧
      (s.basis.bland → ∀ x, Violates t s.basis x → a ≤ x) ∧
      ((0 < (leaving t s.basis a).amount ∧ s' =
          { s with
            basis := pivoted t { s.basis with cursor := cursor } a
            pivots := s.pivots + 1
            degenerate := 0 }) ∨
        ((leaving t s.basis a).amount = 0 ∧
          s' = countDegenerate s (pivoted t { s.basis with cursor := cursor } a))) := by
  obtain ⟨a, cursor, hfind, -, hs⟩ := pivotStep_pivots hc h
  refine ⟨a, cursor, hfind, (isSome_violation htol a).mp (isSome_of_findEntering hfind),
    fun hb x hx => ?_, hs⟩
  exact le_of_findEntering hb hfind ((isSome_violation htol x).mpr hx)

end NetworkFlow.NetworkSimplex
