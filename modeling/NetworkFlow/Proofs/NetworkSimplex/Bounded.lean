import NetworkFlow.Proofs.NetworkSimplex.Optimal

/-!
# The network simplex never answers that the flow can change without bound

An artificial arc has no capacity, but a cycle never consists of artificial arcs only: if the one
of a node enters, the node hangs on an arc of the problem, for its own artificial arc is not
in the tree and there is no other one at the node. So a pivot is limited by what an arc of the
problem can carry, which is far less than what counts as no capacity. Costs play no part in
this, so it is so in any arithmetic.

## Main results

* `link_cases`: a node hangs on an arc of the problem or, below the root, on its artificial arc.
* `amount_le`: what limits a pivot.
* `solve_ne_unbounded`: the answer is never `unbounded`.
-/

namespace NetworkFlow.NetworkSimplex

variable {n m : Nat} {α : Type} {p : Problem n m α} {rule : PivotRule} {dear : α}
  {b : Basis n m α}

/-- A node hangs on an arc of the problem or, below the root, on its artificial arc. -/
theorem link_cases (h : Hung (Tableau.ofProblem p rule dear) b) (v : Fin n) :
    (∃ a : Fin m, b.link[v] = Fin.castAdd n a) ∨
      (b.link[v] = artificial m v ∧ b.parent[v] = root n) := by
  have hjoins := h.joins v
  generalize b.link[v] = a at hjoins
  revert hjoins
  refine Fin.addCases (fun a _ => Or.inl ⟨a, rfl⟩) (fun u hjoins => Or.inr ?_) a
  change Joins _ (artificial m u) _ _ at hjoins
  have hends : Joins (Tableau.ofProblem p rule dear) (artificial m u) (below u) (root n) := by
    unfold Joins
    rw [Tableau.tail_artificial, Tableau.head_artificial]
    split_ifs <;> simp
  rcases hends.eq_or_eq hjoins with ⟨hnode, hparent⟩ | ⟨hnode, -⟩
  · obtain rfl := below_injective hnode
    exact ⟨rfl, hparent⟩
  · exact absurd hnode (below_ne_root v)

variable (p rule dear) in
/-- The cycle of an artificial arc goes through the root: on one side are the nodes on the way up
from its node, on the other side there are none. -/
theorem sides_artificial (hd : Depths b.parent fun u => b.depth[u]) {v : Fin n} {ws : List (Fin n)}
    (hws : Ascent b.parent (below v) ws (root n)) :
    ((cycleOf (Tableau.ofProblem p rule dear) b (artificial m v)).first = below v ∧
        (cycleOf (Tableau.ofProblem p rule dear) b (artificial m v)).firstSide = ws) ∨
      ((cycleOf (Tableau.ofProblem p rule dear) b (artificial m v)).second = below v ∧
        (cycleOf (Tableau.ofProblem p rule dear) b (artificial m v)).secondSide = ws) := by
  obtain ⟨top, hfirst, hsecond, -⟩ :=
    cycleOf_spec (t := Tableau.ofProblem p rule dear) hd (artificial m v)
  have hends : ((cycleOf (Tableau.ofProblem p rule dear) b (artificial m v)).first = below v ∧
        (cycleOf (Tableau.ofProblem p rule dear) b (artificial m v)).second = root n) ∨
      ((cycleOf (Tableau.ofProblem p rule dear) b (artificial m v)).first = root n ∧
        (cycleOf (Tableau.ofProblem p rule dear) b (artificial m v)).second = below v) := by
    unfold cycleOf
    simp only [Tableau.tail_artificial, Tableau.head_artificial]
    split_ifs <;> simp
  rcases hends with ⟨h₁, h₂⟩ | ⟨h₁, h₂⟩
  · rw [h₁] at hfirst
    rw [h₂] at hsecond
    rw [hsecond.eq_nil.2] at hfirst
    exact Or.inl ⟨h₁, hfirst.unique hws⟩
  · rw [h₁] at hfirst
    rw [h₂] at hsecond
    rw [hfirst.eq_nil.2] at hsecond
    exact Or.inr ⟨h₂, hsecond.unique hws⟩

/-- On the cycle of an artificial arc is the link of its node. -/
theorem mem_side_of_artificial (hd : Depths b.parent fun u => b.depth[u]) (v : Fin n) :
    v ∈ (cycleOf (Tableau.ofProblem p rule dear) b (artificial m v)).firstSide ∨
      v ∈ (cycleOf (Tableau.ofProblem p rule dear) b (artificial m v)).secondSide := by
  obtain ⟨ws, hws⟩ := hd.exists_ascent (below v)
  have hv : v ∈ ws := by
    obtain ⟨_, rfl, -⟩ := hws.exists_tail
    simp
  rcases sides_artificial p rule dear hd hws with ⟨-, hside⟩ | ⟨-, hside⟩
  · exact Or.inl (hside ▸ hv)
  · exact Or.inr (hside ▸ hv)

variable [Scalar α] {supply : Table Int n} {a : Fin (m + n)}

/-- What limits a pivot: some arc of the problem is on the cycle. -/
theorem amount_le (h : Consistent (Tableau.ofProblem p rule dear) supply b)
    (ha : b.state[a] ≠ .tree) :
    ∃ x : Fin m, (leaving (Tableau.ofProblem p rule dear) b a).amount ≤ p.cap[x] := by
  obtain ⟨-, hleast⟩ := h.leaving_spec ha
  have hroom : ∀ (r : ResidualArc (m + n)) (x : Fin m), r.arc = Fin.castAdd n x →
      (Tableau.ofProblem p rule dear).room b.flow r ≤ p.cap[x] := by
    intro r x hx
    have hadd := (Tableau.ofProblem p rule dear).room_add_reverse b.flow r
    have hreverse := h.within.room_nonneg r.reverse
    rw [hx, Tableau.cap_castAdd] at hadd
    omega
  revert ha hleast
  refine Fin.addCases (fun x => ?_) (fun v => ?_) a
  · intro ha hleast
    exact ⟨x, (hleast _ List.mem_cons_self).1.trans (hroom _ x rfl)⟩
  · intro ha hleast
    obtain ⟨x, hx⟩ := (link_cases h.toHung v).resolve_right fun hself =>
      h.link_ne ha v hself.1
    refine ⟨x, ?_⟩
    have hside : v ∈ (cycleOf (Tableau.ofProblem p rule dear) b (artificial m v)).firstSide ∨
        v ∈ (cycleOf (Tableau.ofProblem p rule dear) b (artificial m v)).secondSide :=
      mem_side_of_artificial h.depths v
    rcases hside with hv | hv
    · refine (hleast (linkArc (Tableau.ofProblem p rule dear) b v false) ?_).1.trans (hroom _ x hx)
      exact List.mem_cons_of_mem _ (List.mem_append_left _ (List.mem_map.mpr ⟨v, hv, rfl⟩))
    · refine (hleast (linkArc (Tableau.ofProblem p rule dear) b v true) ?_).1.trans (hroom _ x hx)
      exact List.mem_cons_of_mem _ (List.mem_append_right _ (List.mem_map.mpr ⟨v, hv, rfl⟩))

/-- A pivot changes the flow by far less than what counts as no capacity. -/
theorem Consistent.amount_le_half (hp : p.amounts.Prepared)
    (h : Consistent (Tableau.ofProblem p rule dear) supply b) (ha : b.state[a] ≠ .tree) :
    (leaving (Tableau.ofProblem p rule dear) b a).amount ≤ noCapacity / 2 := by
  obtain ⟨x, hx⟩ := amount_le h ha
  have hcap : p.cap[x] ≤ Amount.loadLimit := hp.cap_le x
  have hlimit : Amount.loadLimit ≤ noCapacity / 2 := by decide
  omega

/-- No pivot finds that the flow can change without bound. -/
theorem Consistent.pivot_ne_unbounded (hp : p.amounts.Prepared)
    (h : Consistent (Tableau.ofProblem p rule dear) supply b) (ha : b.state[a] ≠ .tree) :
    pivot (Tableau.ofProblem p rule dear) b a ≠ .unbounded := by
  rw [pivot_eq h ha, if_neg (by have := h.amount_le_half hp ha; omega)]
  split <;> simp

/-- A step of the run does not end it for want of a bound. -/
theorem pivotStep_ne_unbounded (hp : p.amounts.Prepared) {s s' : Progress n m α}
    (hc : Consistent (Tableau.ofProblem p rule dear) supply s.basis) :
    pivotStep (Tableau.ofProblem p rule dear) s ≠ .done (.unbounded s') := by
  intro h
  have hcases := pivotStep_cases (Tableau.ofProblem p rule dear) s
  rw [h] at hcases
  cases hcases with
  | unbounded hfind hpivot =>
      have ha := state_ne_tree_of_violation (isSome_of_findEntering hfind)
      have hc' := hc.with_cursor (findEntering (Tableau.ofProblem p rule dear) s.basis).2
      exact hc'.pivot_ne_unbounded hp ha hpivot

/-- The answer is never that the flow can change without bound. -/
theorem solve_ne_unbounded (hp : p.amounts.Prepared) {fuel : Nat} :
    (solve fuel p rule).outcome ≠ .ok .unbounded := by
  intro h
  obtain ⟨dear, finish, -, hrun, hanswer⟩ := of_solve h
  have hfinish := iterate_invariant
    (P := fun s : Progress n m α => Consistent (Tableau.ofProblem p rule dear) p.supply s.basis)
    (Q := fun o => ∀ s', o ≠ .unbounded s')
    (fun s s' hs hstep => consistent_pivotStep hs (Scalar.checked_eq_ok.mp hstep).2)
    (fun s o hs hstep s' ho => by
      subst ho
      exact pivotStep_ne_unbounded hp hs (Scalar.checked_eq_ok.mp hstep).2)
    (consistent_start hp rule dear) hrun
  cases finish with
  | unbounded s => exact hfinish s rfl
  | optimal s =>
      cases huses : usesArtificial s.basis <;> simp [Finish.answer, huses] at hanswer

end NetworkFlow.NetworkSimplex
