import NetworkFlow.Proofs.NetworkSimplex.Run
import NetworkFlow.Proofs.Reach

/-!
# The network simplex is correct

When no arc violates optimality, the potentials certify the flow of the tableau.
If the artificial arcs carry nothing, the rest of it is an optimal flow of the
problem. If one of them carries something, some node `s` supplies through its
artificial arc and has a potential of at most minus the cost `M` of that arc.
Residual arcs raise the potential by at most the largest cost, so none of the
nodes that they reach from `s` is dear enough to be supplied through an
artificial arc: that would take a potential of `M`. These nodes thus keep all
their demands, no residual arc leaves them, and still they cannot get rid of their
supplies, so no flow is feasible.

## Main results

* `feasible_of_optimal_basis`, `not_feasible_of_usesArtificial`: what the last
  basis says about the problem.
* `solve_correct`, `networkSimplex_correct`: a feasible answer is an optimal flow
  with potentials that certify it, and an infeasible problem has no feasible flow.
-/

namespace NetworkFlow.NetworkSimplex

open Finset Relation
open scoped ExactCosts

variable {n m : Nat} [inst : ExactCosts]

section Certificate

variable {t : Tableau n m Int} {supply : Table Int n} {b : Basis n m Int}

/-- If no arc violates optimality, no residual arc with room has a negative reduced cost. -/
theorem Consistent.reduced_nonneg (h : Consistent t supply b) (hnone : ∀ a, ¬ Violates t b a)
    {r : ResidualArc (m + n)} (hroom : 0 < t.room b.flow r) :
    0 ≤ t.reduced t.cost b.potential r := by
  by_cases hs : b.state[r.arc] = .tree
  · rw [reduced_of_tree h.toSpanning hs]
  · have hentry : 0 ≤ t.reduced t.cost b.potential (entryArc b r.arc) := by
      by_contra hneg
      exact hnone r.arc ⟨hs, not_le.mp hneg⟩
    rcases ResidualArc.eq_or_eq_reverse (r := entryArc b r.arc) (s := r) rfl with heq | heq
    · rwa [heq]
    · have hzero := h.room_reverse_entryArc hs
      rw [← heq] at hzero
      omega

end Certificate

variable {p : Problem n m Int} {rule : PivotRule} {dear : Int} {b : Basis n m Int}

/-- A residual arc of the problem among those of the tableau. -/
def lift (r : ResidualArc m) : ResidualArc (m + n) := ⟨Fin.castAdd n r.arc, r.backward⟩

variable (rule dear) in
omit inst in
theorem room_lift (flow : Table Int (m + n)) (r : ResidualArc m) :
    (Tableau.ofProblem p rule dear).room flow (lift r) = p.room (ownPart flow) r := by
  simp [Network.room, lift]

variable (rule dear) in
omit inst in
theorem reduced_lift (b : Basis n m Int) (r : ResidualArc m) :
    (Tableau.ofProblem p rule dear).reduced (Tableau.ofProblem p rule dear).cost b.potential
      (lift r) = p.reduced p.cost (ownPotential b) r := by
  obtain ⟨a, backward⟩ := r
  cases backward <;>
    simp [Network.reduced, ResidualArc.price, Network.source, Network.target, lift, ownPotential]

omit inst in
/-- A basis that leaves the artificial arcs empty holds a feasible flow. -/
theorem feasible_of_empty {α : Type} [Scalar α] {p : Problem n m α} {dear : α} {b : Basis n m α}
    (h : Consistent (Tableau.ofProblem p rule dear) p.supply b) (hempty : usesArtificial b = false) :
    p.amounts.Feasible (ownFlow b) := by
  have hzero : ∀ v : Fin n, b.flow[artificial m v] = 0 := by
    intro v
    have := List.any_eq_false.mp hempty v (List.mem_finRange v)
    simpa using this
  refine ⟨fun a => ?_, fun v => ?_⟩
  · have := h.within (Fin.castAdd n a)
    rw [Tableau.cap_castAdd] at this
    show 0 ≤ (ownFlow b)[a] ∧ (ownFlow b)[a] ≤ p.cap[a]
    simpa [ownFlow] using this
  · have := h.balanced v
    rw [Tableau.outflow_below, hzero] at this
    show p.outflow (ownFlow b) v = p.supply[v]
    simpa [ownFlow, ownPart] using this

/-- A last basis that leaves the artificial arcs empty holds an optimal flow. -/
theorem feasible_of_optimal_basis (h : Consistent (Tableau.ofProblem p rule dear) p.supply b)
    (hnone : ∀ a, ¬ Violates (Tableau.ofProblem p rule dear) b a)
    (hempty : usesArtificial b = false) :
    p.Feasible (ownFlow b) ∧ p.Certifies (ownFlow b) (ownPotential b) := by
  have hfeasible := feasible_of_empty h hempty
  refine ⟨⟨hfeasible.within, hfeasible.balanced⟩, ?_⟩
  rw [certifies_iff]
  intro r hroom
  rw [← reduced_lift rule dear]
  apply h.reduced_nonneg hnone
  rw [room_lift]
  exact hroom

/-- What the arcs of the problem do not take out of a node, its artificial arc does. -/
theorem supply_eq (h : Consistent (Tableau.ofProblem p rule dear) p.supply b) (v : Fin n) :
    p.supply[v] = p.outflow (ownPart b.flow) v +
      if p.supply[v] < 0 then -b.flow[artificial m v] else b.flow[artificial m v] := by
  rw [← Tableau.outflow_below p rule dear, h.balanced v]

/-- If some artificial arc carries flow, one of them takes a supply to the root. -/
theorem exists_supplying (h : Consistent (Tableau.ofProblem p rule dear) p.supply b)
    (hp : p.Prepared) (huses : usesArtificial b = true) :
    ∃ s : Fin n, 0 ≤ p.supply[s] ∧ 0 < b.flow[artificial m s] := by
  by_contra hnone
  push Not at hnone
  have hart : ∀ v : Fin n, 0 ≤ b.flow[artificial m v] := fun v => (h.within _).1
  -- the amounts on the artificial arcs cancel out, as the supplies do
  have hsum : ∑ v : Fin n, (if p.supply[v] < 0 then -b.flow[artificial m v]
      else b.flow[artificial m v]) = 0 := by
    have h₁ := p.sum_outflow (ownPart b.flow)
    have h₂ : ∑ v : Fin n, ((p.outflow (ownPart b.flow) v) +
        if p.supply[v] < 0 then -b.flow[artificial m v] else b.flow[artificial m v]) =
        ∑ v : Fin n, p.supply[v] :=
      sum_congr rfl fun v _ => (supply_eq h v).symm
    rw [sum_add_distrib, h₁, hp.sum_supply] at h₂
    omega
  have hterm : ∀ v : Fin n, (if p.supply[v] < 0 then -b.flow[artificial m v]
      else b.flow[artificial m v]) ≤ 0 := by
    intro v
    have h₁ := hart v
    split
    · omega
    · exact hnone v (by omega)
  have hzero := (sum_eq_zero_iff_of_nonpos fun v _ => hterm v).mp hsum
  obtain ⟨v, -, hv⟩ := List.any_eq_true.mp huses
  have hv' := hzero v (mem_univ v)
  simp only [ne_eq, decide_eq_true_eq] at hv
  split at hv' <;> omega

/-- An artificial arc in use puts its node at least its cost above or below the root. -/
theorem potential_of_used (h : Consistent (Tableau.ofProblem p rule dear) p.supply b)
    (hnone : ∀ a, ¬ Violates (Tableau.ofProblem p rule dear) b a) {v : Fin n}
    (hv : 0 < b.flow[artificial m v]) :
    if p.supply[v] < 0 then b.potential[root n] + dear ≤ b.potential[below v]
    else b.potential[below v] ≤ b.potential[root n] - dear := by
  have hreduced := h.reduced_nonneg hnone (r := ⟨artificial m v, true⟩) hv
  simp only [Network.reduced, ResidualArc.price, Network.source, Network.target, if_true,
    Tableau.cost_artificial, Tableau.head_artificial, Tableau.tail_artificial] at hreduced
  by_cases hneg : p.supply[v] < 0
  · simp only [hneg, if_true] at hreduced ⊢
    omega
  · simp only [hneg, if_false] at hreduced ⊢
    omega

/-- Along a residual arc with room the potential rises by no more than the largest cost. -/
theorem potential_le_of_open (h : Consistent (Tableau.ofProblem p rule dear) p.supply b)
    (hnone : ∀ a, ¬ Violates (Tableau.ofProblem p rule dear) b a) {top : Int}
    (htop : ∀ a : Fin m, |p.cost[a]| ≤ top) {u v : Fin n} (hopen : p.Open (ownPart b.flow) u v) :
    b.potential[below v] ≤ b.potential[below u] + top := by
  obtain ⟨r, hroom, rfl, rfl⟩ := hopen
  rw [← room_lift rule dear] at hroom
  have hreduced := h.reduced_nonneg hnone hroom
  rw [reduced_lift, Network.reduced] at hreduced
  have habs := abs_le.mp (htop r.arc)
  have hcost : r.price p.cost ≤ top := by
    unfold ResidualArc.price
    split <;> omega
  simp only [ownPotential, Table.getElem_ofFn] at hreduced
  omega

/-- If the last basis has flow on an artificial arc, no flow is feasible: the nodes reached from
one that is supplied over its artificial arc supply more than they can get rid of. -/
theorem not_feasible_of_usesArtificial
    (h : Consistent (Tableau.ofProblem p rule dear) p.supply b)
    (hnone : ∀ a, ¬ Violates (Tableau.ofProblem p rule dear) b a) (hp : p.Prepared)
    (huses : usesArtificial b = true) {top : Int} (htop : ∀ a : Fin m, |p.cost[a]| ≤ top)
    (hdear : ((n : Int) + 1) * (top + 1) ≤ dear) (hnonneg : 0 ≤ top) :
    ¬ ∃ flow, p.Feasible flow := by
  obtain ⟨s, hs, hflow⟩ := exists_supplying h hp huses
  have hart : ∀ v : Fin n, 0 ≤ b.flow[artificial m v] := fun v => (h.within _).1
  have hsource := potential_of_used h hnone hflow
  rw [if_neg (by omega)] at hsource
  -- a node that is supplied from the root lies too far above the first one to be reached
  have hfar : ∀ v, v ∈ p.reachable (ownPart b.flow) s →
      p.supply[v] < 0 → b.flow[artificial m v] = 0 := by
    intro v hv hneg
    by_contra hne
    have hpos := potential_of_used h hnone (lt_of_le_of_ne (hart v) (Ne.symm hne))
    rw [if_pos hneg] at hpos
    have hle := le_add_of_reaches (f := fun v => b.potential[below v]) hnonneg
      (fun _ _ => potential_le_of_open h hnone htop) (Network.mem_reachable.mp hv)
    have hn : (0 : Int) ≤ n := by omega
    nlinarith
  have hclosed : p.Closed (ownPart b.flow) (p.reachable (ownPart b.flow) s) :=
    Network.closed_reachable s
  apply p.not_feasible_of_closed hclosed
  refine sum_lt_sum (fun v hv => ?_) ⟨s, Network.self_mem_reachable s, ?_⟩
  · have h₁ := supply_eq h v
    have h₂ := hart v
    by_cases hneg : p.supply[v] < 0
    · rw [if_pos hneg, hfar v hv hneg] at h₁
      omega
    · rw [if_neg hneg] at h₁
      omega
  · have h₁ := supply_eq h s
    rw [if_neg (by omega)] at h₁
    omega

/-- The cost of an artificial arc, if it is in the range. -/
theorem artificialCost_eq {dear : Int} (h : Tableau.artificialCost p = .ok dear) :
    dear = ((n : Int) + 1) * (Scalar.maxMagnitude 0 p.cost.toList + 1) := by
  unfold Tableau.artificialCost at h
  split at h
  · rename_i cost hcost
    cases h
    rw [eq_mul_of_mul? hcost, ofCount_eq]
    obtain ⟨w, hw⟩ := inst
    subst hw
    push_cast
    rfl
  · cases h

omit inst in
/-- The answer is read off the last basis of the run. -/
theorem solve_inv {α : Type} [Scalar α] {p : Problem n m α} (hp : p.amounts.Prepared) {fuel : Nat}
    {o : Outcome n m α} (h : (solve fuel p rule).outcome = .ok o) :
    o = .unbounded ∨ ∃ dear b, Tableau.artificialCost p = .ok dear ∧
      Consistent (Tableau.ofProblem p rule dear) p.supply b ∧
      (findEntering (Tableau.ofProblem p rule dear) b).1 = none ∧
      o = if usesArtificial b then .infeasible else .feasible (ownFlow b) (ownPotential b) := by
  obtain ⟨dear, finish, hdear, hrun, rfl⟩ := of_solve h
  cases finish with
  | unbounded s => exact Or.inl rfl
  | optimal s =>
      obtain ⟨hc, hfind⟩ := consistent_run (consistent_start hp rule dear) hrun
      exact Or.inr ⟨dear, s.basis, hdear, hc, hfind, rfl⟩

omit inst in
/-- In any arithmetic, the flow of a feasible answer is feasible. -/
theorem solve_feasible {α : Type} [Scalar α] {p : Problem n m α} (hp : p.amounts.Prepared)
    {fuel : Nat} {flow : Table Int m} {potential : Table α n}
    (h : (solve fuel p rule).outcome = .ok (.feasible flow potential)) :
    p.amounts.Feasible flow := by
  rcases solve_inv hp h with ho | ⟨dear, b, -, hc, -, ho⟩
  · cases ho
  · cases huses : usesArtificial b with
    | true => simp [huses] at ho
    | false =>
        simp only [huses, Bool.false_eq_true, if_false, Outcome.feasible.injEq] at ho
        rw [ho.1]
        exact feasible_of_empty hc huses

/-- The answer of the network simplex is right. -/
theorem solve_correct (hp : p.Prepared) {fuel : Nat} {o : Outcome n m Int}
    (h : (solve fuel p rule).outcome = .ok o) :
    (∀ flow potential, o = .feasible flow potential →
      p.Feasible flow ∧ p.Certifies flow potential) ∧
      (o = .infeasible → ¬ ∃ flow, p.Feasible flow) := by
  rcases solve_inv hp.amounts h with rfl | ⟨dear, b, hdear, hc, hfind, ho⟩
  · simp
  · have hnone := not_violates_of_findEntering hp.tolerance_eq hfind
    cases huses : usesArtificial b with
    | true =>
        rw [huses] at ho
        subst ho
        refine ⟨by simp, fun _ => ?_⟩
        exact not_feasible_of_usesArtificial hc hnone hp huses
          (fun a => magnitude_le_maxMagnitude 0 (getElem_mem_toList p.cost a))
          (artificialCost_eq hdear).ge (le_maxMagnitude 0 _)
    | false =>
        rw [huses] at ho
        subst ho
        refine ⟨fun flow potential heq => ?_, by simp⟩
        cases heq
        exact feasible_of_optimal_basis hc hnone huses

end NetworkFlow.NetworkSimplex

namespace NetworkFlow.Configuration

variable {w cw : Width} {c : Configuration w (Word cw)}
  {p : Problem c.nodes c.arcs (Cost.Wide (Word cw))}

/-- On every problem that `prepare` returns, under every rule, a feasible answer of the network
simplex is a flow of least cost with potentials that certify it, and if the answer is that the
problem is infeasible, no flow is feasible. -/
theorem networkSimplex_correct [ExactCosts] (hp : c.prepare.outcome = .ok (some p))
    (rule : PivotRule) (fuel : Nat) :
    (∀ flow potential,
      (NetworkSimplex.solve fuel p.exact rule).outcome = .ok (.feasible flow potential) →
        p.exact.Feasible flow ∧ p.exact.Certifies flow potential ∧ p.exact.Optimal flow) ∧
      ((NetworkSimplex.solve fuel p.exact rule).outcome = .ok .infeasible →
        ¬ ∃ flow, p.exact.Feasible flow) := by
  have hprepared := c.prepared_of_prepare hp
  constructor
  · intro flow potential h
    obtain ⟨hfeasible, hcertifies⟩ :=
      (NetworkSimplex.solve_correct hprepared h).1 flow potential rfl
    exact ⟨hfeasible, hcertifies, hcertifies.optimal hfeasible⟩
  · intro h
    exact (NetworkSimplex.solve_correct hprepared h).2 rfl

/-- Of two units, one takes the cheaper arc; the network simplex answers so under block search. -/
theorem networkSimplex_correct_parallelArcs :
    letI := ExactCosts.ofWidth .bits128
    parallelArcs.prepare.outcome = .ok (some parallelProblem) ∧
      (NetworkSimplex.solve 9 parallelProblem.exact .blockSearch).outcome =
        .ok (.feasible ⟨#v[1, 1]⟩ ⟨#v[-12, -9]⟩) ∧
      parallelProblem.exact.Optimal ⟨#v[1, 1]⟩ := by
  have hsolve :
      letI := ExactCosts.ofWidth .bits128
      (NetworkSimplex.solve 9 parallelProblem.exact .blockSearch).outcome =
        .ok (.feasible ⟨#v[1, 1]⟩ ⟨#v[-12, -9]⟩) := by
    decide +kernel
  let _ := ExactCosts.ofWidth .bits128
  have hcorrect := networkSimplex_correct prepare_parallelArcs .blockSearch 9
  exact ⟨prepare_parallelArcs, hsolve, (hcorrect.1 _ _ hsolve).2.2⟩

end NetworkFlow.Configuration
