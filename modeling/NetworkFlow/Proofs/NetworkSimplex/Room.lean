import NetworkFlow.Proofs.NetworkSimplex.Bounded
import NetworkFlow.Proofs.NetworkSimplex.Words

/-!
# Room for the potentials of the network simplex

A potential is put together on the way up the tree, from one artificial arc, the one at the
root, and arcs of the problem. So it is no larger than the cost of an artificial arc and the
largest cost of an arc for each node. If three times the one and twice the other fit the
width, so do reduced costs. A refresh settles nodes layer by layer: when the turn of a node comes,
all that are less deep are settled, so what it computes is bounded in the same way.

## Main results

* `abs_potential_le`: the potentials of a spanning tree.
* `stepOperations_fit`: what a step of a run computes fits.
* `solve_ne_overflow`: if five times the cost of an artificial arc fits, a run does not overflow.
* `solve_refuses_nothing`: it is not refused if the cost of an artificial arc fits.
-/

namespace NetworkFlow.NetworkSimplex

open scoped ExactCosts

variable {n m : Nat} {w : Width}

/-- The arcs of the problem cost no more than `top` and the artificial ones no more than `far`, so
little that no reduced cost leaves the range. -/
structure Narrow (p : Problem n m (Word w)) (dear : Word w) (top far : Int) : Prop where
  own : ∀ a : Fin m, |p.cost[a].val| ≤ top
  nonneg : 0 ≤ top
  dear : |dear.val| ≤ far
  le : top ≤ far
  fits : 3 * far + 2 * (n * top) < w.half

section Potentials

variable {p : Problem n m (Word w)} {rule : PivotRule} {dear : Word w} {b : Basis n m (Word w)}
  {top far : Int}

theorem Narrow.abs_cost_le (hn : Narrow p dear top far) (rule : PivotRule) (a : Fin (m + n)) :
    |(Tableau.ofProblem p rule dear).cost[a].val| ≤ far := by
  refine Fin.addCases (fun a => ?_) (fun u => ?_) a
  · rw [Tableau.cost_castAdd]
    exact (hn.own a).trans hn.le
  · exact (congrArg (|Word.val ·|) (Tableau.cost_artificial p rule dear u)).trans_le hn.dear

theorem Narrow.far_lt (hn : Narrow p dear top far) : far + n * top < w.half := by
  have hfits := hn.fits
  have hnonneg := hn.nonneg
  have hle := hn.le
  have hpos : 0 ≤ (n : Int) * top := by positivity
  omega

/-- What a node gets from its parent, if that and its link leave room for it. -/
theorem link_bounded {t : Tableau n m (Word w)} {v : Fin n} (bound : Int)
    (hbound : |b.potential[b.parent[v]].val| + |t.cost[b.link[v]].val| ≤ bound)
    (hfits : bound < w.half) :
    (∀ op ∈ Basis.linkOperations t b v, op.Fits) ∧
      |(Basis.linkedPotential t b v).val| ≤ bound := by
  have hless := (abs_sub b.potential[b.parent[v]].val t.cost[b.link[v]].val).trans hbound
  have hmore := (abs_add_le b.potential[b.parent[v]].val t.cost[b.link[v]].val).trans hbound
  have hsub : CostOperation.Fits (.sub b.potential[b.parent[v]] t.cost[b.link[v]]) :=
    Width.fits_of_abs_lt (hless.trans_lt hfits)
  have hadd : CostOperation.Fits (.add b.potential[b.parent[v]] t.cost[b.link[v]]) :=
    Width.fits_of_abs_lt (hmore.trans_lt hfits)
  unfold Basis.linkOperations Basis.linkedPotential
  dsimp only
  split
  · rw [CostOperation.val_sub hsub]
    exact ⟨by simpa using hsub, hless⟩
  · rw [CostOperation.val_add hadd]
    exact ⟨by simpa using hadd, hmore⟩

/-- What a potential is put together from, if the nodes that are less deep are settled. -/
theorem abs_link_le (hb : Hung (Tableau.ofProblem p rule dear) b) {depth : Fin (n + 1) → Nat}
    (hd : Depths b.parent depth) (hroot : b.potential[root n] = 0) (hn : Narrow p dear top far)
    (v : Fin n) (hsettled : ∀ x : Fin n, depth (below x) < depth (below v) →
      Settled (Tableau.ofProblem p rule dear) b x) :
    |b.potential[b.parent[v]].val| + |(Tableau.ofProblem p rule dear).cost[b.link[v]].val| ≤
      far + (depth (below v) - 1 : Nat) * top := by
  have hnonneg := hn.nonneg
  have hfar := hn.far_lt
  induction hk : depth (below v) using Nat.strong_induction_on generalizing v with
  | _ k ih =>
      have hstep := hd.step v
      by_cases hup : b.parent[v] = root n
      · have hcost := hn.abs_cost_le rule b.link[v]
        have hpos : 0 ≤ ((k - 1 : Nat) : Int) * top := by positivity
        rw [hup, hroot, val_zero, abs_zero]
        omega
      · obtain ⟨a, ha⟩ := (link_cases hb v).resolve_right fun hchild => hup hchild.2
        obtain ⟨u, hu⟩ := (eq_root_or_below b.parent[v]).resolve_left hup
        have hparent := hd.step u
        rw [← hu] at hparent
        have hlink := ih (depth (below u)) (by rw [← hu]; omega) u
          (fun x hx => hsettled x (by rw [← hu] at hx; omega)) rfl
        have hbound : far + (depth (below u) - 1 : Nat) * top < w.half := by
          have hdepth : depth (below u) ≤ n := hd.le_nodes _
          have : ((depth (below u) - 1 : Nat) : Int) * top ≤ n * top :=
            mul_le_mul_of_nonneg_right (by omega) hnonneg
          omega
        have hpotential := (link_bounded _ hlink hbound).2
        rw [← (hsettled u (by rw [← hu]; omega)).2, ← hu] at hpotential
        have hcast : ((k - 1 : Nat) : Int) = (depth b.parent[v] - 1 : Nat) + 1 := by omega
        have hcost := hn.own a
        rw [ha, Tableau.cost_castAdd, hcast, add_mul, one_mul]
        omega

/-- No potential is larger than what the dearest way up costs. -/
theorem abs_potential_le (h : Spanning (Tableau.ofProblem p rule dear) b)
    (hn : Narrow p dear top far) (u : Fin (n + 1)) : |b.potential[u].val| ≤ far + n * top := by
  have hnonneg := hn.nonneg
  have hfar := hn.far_lt
  rcases eq_root_or_below u with rfl | ⟨v, rfl⟩
  · have hle := hn.le
    have hpos : 0 ≤ (n : Int) * top := by positivity
    rw [h.potential_root, val_zero, abs_zero]
    omega
  · have hlink := abs_link_le h.toHung h.depths h.potential_root hn v fun x _ => h.settled x
    have hdepth : b.depth[below v] ≤ n := h.depths.le_nodes _
    have hway : ((b.depth[below v] - 1 : Nat) : Int) * top ≤ n * top :=
      mul_le_mul_of_nonneg_right (by omega) hnonneg
    rw [(h.settled v).2]
    exact (link_bounded _ (hlink.trans (by omega)) hfar).2

/-- What is computed for the reduced cost of an arc fits, and the reduced cost can be turned. -/
theorem reducedCostOperations_fit (h : Spanning (Tableau.ofProblem p rule dear) b)
    (hn : Narrow p dear top far) (a : Fin (m + n)) :
    (∀ op ∈ reducedCostOperations (Tableau.ofProblem p rule dear) b a, op.Fits) ∧
      |(reducedCost (Tableau.ofProblem p rule dear) b a).val| < w.half := by
  let t := Tableau.ofProblem p rule dear
  have hfits := hn.fits
  have hpos : 0 ≤ (n : Int) * top := mul_nonneg (by omega) hn.nonneg
  have hcost := abs_le.mp (show |t.cost[a].val| ≤ far from hn.abs_cost_le rule a)
  have htail := abs_le.mp (abs_potential_le h hn t.tail[a])
  have hhead := abs_le.mp (abs_potential_le h hn t.head[a])
  have hadd : CostOperation.Fits (.add t.cost[a] b.potential[t.tail[a]]) :=
    ⟨by simp only [CostOperation.exact]; omega, by simp only [CostOperation.exact]; omega⟩
  have hbound : |CostOperation.exact
      (.sub (t.cost[a] + b.potential[t.tail[a]]) b.potential[t.head[a]])| < w.half := by
    rw [CostOperation.exact, CostOperation.val_add hadd]
    exact abs_lt.mpr ⟨by omega, by omega⟩
  have hsub : CostOperation.Fits
      (.sub (t.cost[a] + b.potential[t.tail[a]]) b.potential[t.head[a]]) :=
    Width.fits_of_abs_lt hbound
  have hval : (reducedCost t b a).val = _ := CostOperation.val_sub hsub
  exact ⟨by simp [reducedCostOperations, t, hadd, hsub], hval ▸ hbound⟩

/-- What is computed to tell whether an arc violates optimality fits. -/
theorem violationOperations_fit (h : Spanning (Tableau.ofProblem p rule dear) b)
    (hn : Narrow p dear top far) (htol : p.tolerance.val = 0) (a : Fin (m + n)) :
    ∀ op ∈ violationOperations (Tableau.ofProblem p rule dear) b a, op.Fits := by
  obtain ⟨hcosts, hturn⟩ := reducedCostOperations_fit h hn a
  have hthreshold : CostOperation.Fits (.neg p.tolerance) := CostOperation.fits_neg_of_val htol
  unfold violationOperations
  cases b.state[a] with
  | tree => simp
  | lower =>
      refine List.forall_mem_append.mpr ⟨hcosts, List.forall_mem_cons.mpr ⟨hthreshold, ?_⟩⟩
      split
      · exact List.forall_mem_singleton.mpr (CostOperation.fits_neg le_rfl hturn)
      · simp
  | upper => exact hcosts

end Potentials

section Refresh

variable {α : Type} [Scalar α] {t : Tableau n m α} {b : Basis n m α}
  {depth : Fin (n + 1) → Nat} {k : Nat} {layer rest : List (Fin n)}

/-- What is less deep than the layer is settled. -/
theorem Layered.settled_of_lt (h : Layered t b depth k layer) {x : Fin n}
    (hx : depth (below x) < k) : Settled t b x := by
  refine (h.settled_or x).resolve_right ?_
  rintro ⟨w, hw, vs, hvs, hmem⟩
  have hle := (h.depths.lt_of_mem hvs hmem).2
  have heq := h.depth_eq w hw
  omega

/-- Settling some nodes of a layer leaves the tree and the potentials of their parents. -/
theorem Layered.foldl_settle {done : List (Fin n)} (h : Layered t b depth k (done ++ rest)) :
    (done.foldl (Basis.settle t) b).parent = b.parent ∧
      (done.foldl (Basis.settle t) b).link = b.link ∧
      ∀ v ∈ rest, (done.foldl (Basis.settle t) b).potential[b.parent[v]] =
        b.potential[b.parent[v]] := by
  have hdone : ∀ v ∈ done, ∀ w ∈ done, b.parent[v] ≠ below w := fun v hv w hw =>
    h.apart (List.mem_append_left rest hv) (List.mem_append_left rest hw)
  obtain ⟨depth', potential', heq, hset⟩ := exists_foldl_settle (t := t) hdone
  rw [heq]
  refine ⟨rfl, rfl, fun v hv => (hset.same b.parent[v] fun w hw => ?_).2⟩
  exact h.apart (List.mem_append_right done hv) (List.mem_append_left rest hw)

end Refresh

section Pivots

variable {p : Problem n m (Word w)} {rule : PivotRule} {dear : Word w} {b : Basis n m (Word w)}
  {supply : Table Int n} {top far : Int} {depth : Fin (n + 1) → Nat} {k : Nat}
  {layer : List (Fin n)}

/-- What is computed for the potential of a node of the layer fits, also in the middle of it. -/
theorem Layered.linkOperations_fit {done rest : List (Fin n)} {v : Fin n}
    (h : Layered (Tableau.ofProblem p rule dear) b depth k (done ++ v :: rest))
    (hroot : b.potential[root n] = 0) (hn : Narrow p dear top far) :
    ∀ op ∈ Basis.linkOperations (Tableau.ofProblem p rule dear)
      (done.foldl (Basis.settle (Tableau.ofProblem p rule dear)) b) v, op.Fits := by
  obtain ⟨hparent, hlink, hpotential⟩ := h.foldl_settle
  have hv : v ∈ done ++ v :: rest := by simp
  have hbound := abs_link_le h.hung h.depths hroot hn v fun x hx =>
    h.settled_of_lt (by rwa [h.depth_eq v hv] at hx)
  have hdepth := h.depths.le_nodes (below v)
  have hway : ((depth (below v) - 1 : Nat) : Int) * top ≤ n * top :=
    mul_le_mul_of_nonneg_right (by omega) hn.nonneg
  refine (link_bounded (far + n * top) ?_ hn.far_lt).1
  rw [hparent, hlink, hpotential v (by simp)]
  omega

/-- What a refresh computes fits. -/
theorem Layered.refreshOperations_fit
    (h : Layered (Tableau.ofProblem p rule dear) b depth k layer)
    (hroot : b.potential[root n] = 0) (hn : Narrow p dear top far) (count : Nat) :
    ∀ op ∈ Basis.refreshOperations (Tableau.ofProblem p rule dear) b count layer, op.Fits := by
  induction count generalizing b k layer with
  | zero => simp [Basis.refreshOperations]
  | succ count ih =>
      cases layer with
      | nil => simp [Basis.refreshOperations]
      | cons x xs =>
          obtain ⟨depth', potential', heq, -, hroot', hnext⟩ := h.deeper
          rw [Basis.refreshOperations, List.forall_mem_append]
          · refine ⟨?_, ?_⟩
            · refine foldOperations_fit (P := fun rest s => ∃ done, x :: xs = done ++ rest ∧
                s = done.foldl (Basis.settle (Tableau.ofProblem p rule dear)) b) ?_ ?_
                ⟨[], rfl, rfl⟩
              · rintro _ v rest ⟨done, hlayer, rfl⟩
                rw [hlayer] at h
                exact h.linkOperations_fit hroot hn
              · rintro _ v rest ⟨done, hlayer, rfl⟩
                exact ⟨done ++ [v], by simp [hlayer], by rw [List.foldl_append]; rfl⟩
            · simp only [heq]
              exact ih hnext (hroot'.trans hroot)
          · exact List.cons_ne_nil x xs

/-- What a pivot on an arc outside the tree computes fits. -/
theorem Consistent.pivotOperations_fit (h : Consistent (Tableau.ofProblem p rule dear) supply b)
    (hn : Narrow p dear top far) {a : Fin (m + n)} (ha : b.state[a] ≠ .tree) :
    ∀ op ∈ pivotOperations (Tableau.ofProblem p rule dear) b a, op.Fits := by
  let t := Tableau.ofProblem p rule dear
  have hshifted : ∀ op ∈ exchangeOperations t
      (if 0 < (leaving t b a).amount then
        shiftCycle t b a (cycleOf t b a) (leaving t b a).amount else b) a
      (cycleOf t b a) (leaving t b a), op.Fits := by
    rw [h.shifted_eq ha]
    unfold exchangeOperations
    cases hplace : (leaving t b a).place with
    | none => simp
    | some place =>
        obtain ⟨v, onFirst⟩ := place
        obtain ⟨⟨depth, k, hlayered⟩, hpotential⟩ := h.layered_grafted ha hplace
        exact hlayered.refreshOperations_fit (by rw [hpotential, h.potential_root]) hn (n + 1)
  unfold pivotOperations
  dsimp only
  split
  · simp
  · exact hshifted

/-- What a step of a run computes fits. -/
theorem stepOperations_fit {s : Progress n m (Word w)}
    (h : Consistent (Tableau.ofProblem p rule dear) supply s.basis) (hn : Narrow p dear top far)
    (htol : p.tolerance.val = 0) :
    ∀ op ∈ stepOperations (Tableau.ofProblem p rule dear) s, op.Fits := by
  unfold stepOperations
  dsimp only
  refine List.forall_mem_append.mpr ⟨fun op hop => ?_, ?_⟩
  · obtain ⟨a, -, hop⟩ := List.mem_flatMap.mp hop
    exact violationOperations_fit h.toSpanning hn htol a op hop
  · cases hfound : (findEntering (Tableau.ofProblem p rule dear) s.basis).1 with
    | none => simp
    | some a =>
        have ha : s.basis.state[a] ≠ .tree :=
          state_ne_tree_of_violation (isSome_of_findEntering hfound)
        exact (h.with_cursor _).pivotOperations_fit hn ha

/-- The pivots do not overflow. -/
theorem run_ne_overflow {s : Progress n m (Word w)}
    (h : Consistent (Tableau.ofProblem p rule dear) supply s.basis) (hn : Narrow p dear top far)
    (htol : p.tolerance.val = 0) (fuel : Nat) :
    run (Tableau.ofProblem p rule dear) fuel s ≠ .error .overflow :=
  iterate_ne_overflow
    (P := fun s => Consistent (Tableau.ofProblem p rule dear) supply s.basis)
    (fun _ hs => Scalar.checked_ne_overflow (by simpa using stepOperations_fit hs hn htol))
    (fun _ _ hs hstep => consistent_pivotStep hs (Scalar.checked_eq_ok.mp hstep).2) h

end Pivots

section Solve

variable {p : Problem n m (Word w)} {rule : PivotRule} {top : Int} {fuel : Nat}
  (htop : ∀ a : Fin m, |p.cost[a].val| ≤ top) (hnonneg : 0 ≤ top)

include htop hnonneg

/-- What the cost of an artificial arc takes fits, and so does the cost itself. -/
theorem artificialCost_fits (hfits : ((n : Int) + 1) * (top + 1) < w.half) :
    (∀ op ∈ Tableau.artificialCostOperations p, op.Fits) ∧
      ∃ dear, Tableau.artificialCost p = .ok dear ∧ |dear.val| ≤ (n + 1) * (top + 1) := by
  have hn : (n : Int) + 1 ≤ (n + 1) * (top + 1) := le_mul_of_one_le_right (by omega) (by omega)
  have htop' : top + 1 ≤ ((n : Int) + 1) * (top + 1) := le_mul_of_one_le_left (by omega) (by omega)
  have hmagnitudes := magnitudeOperations_fit htop (show top < w.half by omega)
  have hmin := val_maxMagnitude_nonneg htop (by omega)
  have hmax := val_maxMagnitude_le htop (by omega) hnonneg
  have hone : (1 : Word w).val = 1 := rfl
  have hsucc : CostOperation.Fits (.add (Scalar.maxMagnitude 0 p.cost.toList) 1) := by
    show w.Fits ((Scalar.maxMagnitude 0 p.cost.toList).val + (1 : Word w).val)
    exact ⟨by omega, by omega⟩
  have hpos : 0 ≤ ((n : Int) + 1) * ((Scalar.maxMagnitude 0 p.cost.toList).val + 1) := by positivity
  have hle : ((n : Int) + 1) * ((Scalar.maxMagnitude 0 p.cost.toList).val + 1) ≤
      (n + 1) * (top + 1) := mul_le_mul_of_nonneg_left (by omega) (by omega)
  have hproduct : w.Fits (((n : Int) + 1) * ((Scalar.maxMagnitude 0 p.cost.toList).val + 1)) :=
    ⟨by omega, by omega⟩
  have hmul : Scalar.mul? (Scalar.ofCount (n + 1)) (Scalar.maxMagnitude 0 p.cost.toList + 1) =
      some (⟨_, hproduct⟩ : Word w) := by
    show Word.ofInt? (_ * _) = _
    rw [val_ofCount_succ (by omega), CostOperation.val_add hsucc, hone, Word.ofInt?_of_fits hproduct]
  refine ⟨List.forall_mem_append.mpr ⟨hmagnitudes, by simpa using hsucc⟩, ⟨_, hproduct⟩, ?_, ?_⟩
  · unfold Tableau.artificialCost
    rw [hmul]
  · rw [abs_of_nonneg hpos]
    exact hle

/-- If five times the cost of an artificial arc fits, there is room for reduced costs. -/
theorem narrow_of_artificialCost (hfits : 5 * (((n : Int) + 1) * (top + 1)) ≤ w.half)
    {dear : Word w} (hdear : Tableau.artificialCost p = .ok dear) :
    Narrow p dear top ((n + 1) * (top + 1)) := by
  have hpos : (0 : Int) < (n + 1) * (top + 1) := by positivity
  have htop' : top + 1 ≤ ((n : Int) + 1) * (top + 1) := le_mul_of_one_le_left (by omega) (by omega)
  have hexpand : ((n : Int) + 1) * (top + 1) = n * top + n + top + 1 := by ring
  obtain ⟨-, dear', hdear', hle⟩ := artificialCost_fits htop hnonneg (by omega)
  obtain rfl : dear' = dear := Except.ok.inj (hdear'.symm.trans hdear)
  exact ⟨htop, hnonneg, hle, by omega, by omega⟩

/-- The network simplex does not overflow as long as five times the cost of an artificial arc fits
the width. -/
theorem solve_ne_overflow (hp : p.amounts.Prepared) (htol : p.tolerance.val = 0)
    (hfits : 5 * (((n : Int) + 1) * (top + 1)) ≤ w.half) :
    (solve fuel p rule).NoOverflow := by
  have hpos : (0 : Int) < (n + 1) * (top + 1) := by positivity
  obtain ⟨hartificial, dear, hdear, -⟩ := artificialCost_fits htop hnonneg (by omega)
  have hn := narrow_of_artificialCost htop hnonneg hfits hdear
  have hstart : ∀ op ∈ Basis.startOperations (Tableau.ofProblem p rule dear) p, op.Fits := by
    have hlayered := (layered_unsettled p rule dear).refreshOperations_fit
      (unsettled_root (Tableau.ofProblem p rule dear) p).2 hn (n + 1)
    rwa [← children_unsettled_root (Tableau.ofProblem p rule dear) p] at hlayered
  have hguard : ∀ {operations : List (CostOperation (Word w))}, (∀ op ∈ operations, op.Fits) →
      (Logged.ofRun (Scalar.inRange operations)).NoOverflow := fun hoperations =>
    Logged.noOverflow_ofRun (Scalar.checked_ne_overflow (by simpa using hoperations))
  rw [solve_eq, hdear]
  refine (hguard hartificial).bind fun _ _ => ?_
  refine (Logged.noOverflow_ofExcept _).bind fun dear' hdear' => ?_
  obtain rfl : dear = dear' := Except.ok.inj (Logged.outcome_ofExcept_eq_ok.mp hdear')
  refine (hguard hstart).bind fun _ _ => ?_
  refine (Logged.noOverflow_ofRun (run_ne_overflow (consistent_start hp rule dear) hn htol
    fuel)).bind fun finish _ => ?_
  exact Logged.noOverflow_of_ok finish.outcome_report

/-- The network simplex on words refuses nothing as long as the cost of an artificial arc fits the
width. -/
theorem solve_refuses_nothing (hfits : ((n : Int) + 1) * (top + 1) < w.half) :
    (solve fuel p rule).RefusesOnly fun _ => False := by
  obtain ⟨-, dear, hdear, -⟩ := artificialCost_fits htop hnonneg hfits
  refine refusesOnly_solve fun cause h => ?_
  rw [hdear] at h
  cases h

end Solve

end NetworkFlow.NetworkSimplex
