import NetworkFlow.Proofs.NetworkSimplex.Bounded
import NetworkFlow.Proofs.NetworkSimplex.Visited

/-!
# The two levels of the potentials

The way up from a node ends with an artificial arc, and this is the only one on it. The
node of that arc has the potential `-M` if the arc leads to the root and `M` if it leads
away from it, where `M` is what an artificial arc costs. Every other arc on the way
changes the potential by no more than the largest cost, so the node itself is near one
of these two levels.

An artificial arc violates optimality only if its node is below the lower level or
above the upper one. That node is then near the level it is beyond, so the way up from
it ends with an artificial arc in the same direction, and the cycle runs against it.

## Main results

* `abs_sub_level_le`, `Spanning.exists_level`: how near the potential of a node is to a level.
* `Consistent.exists_losing`: an artificial arc that enters takes the flow of another one.
* `pivots_stay_bounded`: no pivot, and so no answer, is without bound.
-/

namespace NetworkFlow.NetworkSimplex

open scoped ExactCosts

variable {n m : Nat}

section Hung

variable {α : Type} {p : Problem n m α} {rule : PivotRule} {dear : α} {b : Basis n m α}
  {u v : Fin n}

/-- A node hangs below the root on its artificial arc. -/
theorem Hung.link_of_parent_root (h : Hung (Tableau.ofProblem p rule dear) b)
    (hparent : b.parent[v] = root n) : b.link[v] = artificial m v := by
  rcases link_cases h v with ⟨a, ha⟩ | ⟨hself, -⟩
  · have hjoins := h.joins v
    rw [ha, hparent] at hjoins
    -- the ends of an arc of the problem are no root
    rcases hjoins with ⟨-, hend⟩ | ⟨-, hend⟩
    · rw [Tableau.head_castAdd] at hend
      exact absurd hend (below_ne_root _)
    · rw [Tableau.tail_castAdd] at hend
      exact absurd hend (below_ne_root _)
  · exact hself

/-- A node hangs below another one on an arc of the problem. -/
theorem Hung.link_of_parent_below (h : Hung (Tableau.ofProblem p rule dear) b)
    (hparent : b.parent[v] = below u) : ∃ a : Fin m, b.link[v] = Fin.castAdd n a := by
  refine (link_cases h v).resolve_right fun hself => ?_
  rw [hparent] at hself
  exact below_ne_root u hself.2

variable (p rule dear)

/-- Of the two ends of an artificial arc, one is the root. -/
theorem Tableau.head_artificial_eq_root_iff (v : Fin n) :
    (Tableau.ofProblem p rule dear).head[artificial m v] = root n ↔
      (Tableau.ofProblem p rule dear).tail[artificial m v] = below v := by
  have hroot : root n ≠ below v := (below_ne_root v).symm
  rw [Tableau.tail_artificial, Tableau.head_artificial]
  split_ifs <;> simp [hroot, below_ne_root]

/-- The residual arc along an artificial link runs forward if it is taken in the direction of
the arc. -/
theorem linkArc_artificial (hu : b.link[u] = artificial m u) (rising : Bool) :
    linkArc (Tableau.ofProblem p rule dear) b u rising =
      ⟨artificial m u,
        if (Tableau.ofProblem p rule dear).head[artificial m u] = root n then !rising
        else rising⟩ := by
  unfold linkArc linkUp
  simp only [hu, ← Tableau.head_artificial_eq_root_iff]
  split_ifs with hhead
  · simp only [hhead, decide_true, Bool.true_bne]
  · simp only [hhead, decide_false, Bool.false_bne]

end Hung

section Potentials

variable [inst : ExactCosts] {p : Problem n m Int} {rule : PivotRule} {dear top : Int}
  {b : Basis n m Int} {u v : Fin n}

/-- The link of a node makes its potential that of its parent less what the way up costs. -/
theorem Spanning.potential_below {t : Tableau n m Int} (h : Spanning t b) (v : Fin n) :
    b.potential[below v] = b.potential[b.parent[v]] - (linkArc t b v true).price t.cost := by
  have hreduced := reduced_linkArc h v true
  obtain ⟨hsource, htarget⟩ := source_linkArc h.toHung v
  rw [Network.reduced, hsource, htarget] at hreduced
  omega

/-- The potential of a node that hangs on its artificial arc. -/
def level (t : Tableau n m Int) (dear : Int) (u : Fin n) : Int :=
  if t.head[artificial m u] = root n then -dear else dear

theorem Spanning.potential_eq_level (h : Spanning (Tableau.ofProblem p rule dear) b)
    (hparent : b.parent[u] = root n) :
    b.potential[below u] = level (Tableau.ofProblem p rule dear) dear u := by
  have hroot : b.potential[root n] = (0 : Int) := h.potential_root.trans scalar_zero_eq
  rw [h.potential_below, hparent, hroot, zero_sub, level,
    linkArc_artificial p rule dear (h.toHung.link_of_parent_root hparent), ResidualArc.price,
    Tableau.cost_artificial]
  by_cases hhead : (Tableau.ofProblem p rule dear).head[artificial m u] = root n
  · simp only [hhead, if_true, Bool.not_true, Bool.false_eq_true, if_false]
  · simp only [hhead, if_false, if_true, neg_neg]

/-- A link that is an arc of the problem changes the potential by no more than the largest cost. -/
theorem Spanning.abs_potential_sub_le (h : Spanning (Tableau.ofProblem p rule dear) b)
    (htop : ∀ a : Fin m, |p.cost[a]| ≤ top) (hparent : b.parent[v] = below u) :
    |b.potential[below v] - b.potential[below u]| ≤ top := by
  obtain ⟨a, ha⟩ := h.toHung.link_of_parent_below hparent
  have hprice : |(linkArc (Tableau.ofProblem p rule dear) b v true).price
      (Tableau.ofProblem p rule dear).cost| ≤ top := by
    unfold ResidualArc.price linkArc
    rw [ha, Tableau.cost_castAdd]
    split
    · rw [abs_neg]
      exact htop a
    · exact htop a
  rwa [h.potential_below, hparent, sub_sub_cancel_left, abs_neg]

/-- A node that is `vs` below a child of the root has a potential that differs from the level of
that child by no more than the arcs on the way cost. -/
theorem abs_sub_level_le (h : Spanning (Tableau.ofProblem p rule dear) b)
    (htop : ∀ a : Fin m, |p.cost[a]| ≤ top) {vs : List (Fin n)}
    (hvs : Ascent b.parent (below v) (vs ++ [u]) (root n)) :
    |b.potential[below v] - level (Tableau.ofProblem p rule dear) dear u| ≤ vs.length * top := by
  induction vs generalizing v with
  | nil =>
      obtain ⟨hself, hparent⟩ : below v = below u ∧ b.parent[u] = root n := hvs
      rw [hself, h.potential_eq_level hparent]
      simp
  | cons x xs ih =>
      obtain ⟨hself, hrest⟩ := hvs
      obtain rfl := below_injective hself
      rcases eq_root_or_below b.parent[v] with hroot | ⟨w, hw⟩
      · -- above the root is nothing, but the way goes on to `u`
        rw [hroot] at hrest
        exact absurd hrest.eq_nil.1 (by simp)
      · rw [hw] at hrest
        have hfirst := h.abs_potential_sub_le htop hw
        have htriangle := abs_sub_le b.potential[below v] b.potential[below w]
          (level (Tableau.ofProblem p rule dear) dear u)
        have hlength : (((v :: xs).length : Nat) : Int) * top = top + xs.length * top := by
          rw [List.length_cons]
          push_cast
          ring
        have := ih hrest
        omega

/-- The way up from a node ends with an artificial arc, and the potential of the node is near the
level of that arc. -/
theorem Spanning.exists_level (h : Spanning (Tableau.ofProblem p rule dear) b)
    (htop : ∀ a : Fin m, |p.cost[a]| ≤ top) (hnonneg : 0 ≤ top) (v : Fin n) :
    ∃ vs u, Ascent b.parent (below v) (vs ++ [u]) (root n) ∧ b.link[u] = artificial m u ∧
      |b.potential[below v] - level (Tableau.ofProblem p rule dear) dear u| ≤
        ((n : Int) - 1) * top := by
  obtain ⟨ws, hws⟩ := h.depths.exists_ascent (below v)
  have hnodup := (h.depths.nodup hws).length_le_card
  rw [Fintype.card_fin] at hnodup
  rcases List.eq_nil_or_concat' ws with rfl | ⟨vs, u, rfl⟩
  · exact absurd hws (below_ne_root v)
  · refine ⟨vs, u, hws, h.toHung.link_of_parent_root hws.parent_of_append, ?_⟩
    refine (abs_sub_level_le h htop hws).trans (mul_le_mul_of_nonneg_right ?_ hnonneg)
    rw [List.length_append, List.length_singleton] at hnodup
    omega

end Potentials

/-- An artificial arc never carries all it can. -/
theorem Consistent.state_artificial_ne_upper {α : Type} [Scalar α] {p : Problem n m α}
    {rule : PivotRule} {dear : α} {b : Basis n m α} (hp : p.amounts.Prepared)
    (h : Consistent (Tableau.ofProblem p rule dear) p.supply b) (v : Fin n) :
    b.state[artificial m v] ≠ .upper := by
  intro hs
  have hfull := h.upper_eq _ hs
  have hload := (le_abs_self _).trans (h.abs_artificial_le v)
  have hlimit : p.load v ≤ Amount.loadLimit := hp.load_le v
  have hless : Amount.loadLimit < noCapacity := by decide
  rw [hfull, Tableau.cap_artificial] at hload
  omega

section Losing

variable [inst : ExactCosts] {p : Problem n m Int} {rule : PivotRule} {dear top : Int}
  {b : Basis n m Int} {u v : Fin n}

/-- An artificial arc that violates optimality carries nothing. -/
theorem Consistent.state_of_violates (hp : p.amounts.Prepared)
    (h : Consistent (Tableau.ofProblem p rule dear) p.supply b)
    (hv : Violates (Tableau.ofProblem p rule dear) b (artificial m v)) :
    b.state[artificial m v] = .lower := by
  cases hs : b.state[artificial m v] with
  | lower => rfl
  | tree => exact absurd hs hv.1
  | upper => exact absurd hs (h.state_artificial_ne_upper hp v)

/-- The node of an artificial arc that violates optimality is beyond the level of the arc. -/
theorem Consistent.beyond_level (hp : p.amounts.Prepared)
    (h : Consistent (Tableau.ofProblem p rule dear) p.supply b)
    (hv : Violates (Tableau.ofProblem p rule dear) b (artificial m v)) :
    if (Tableau.ofProblem p rule dear).head[artificial m v] = root n
      then b.potential[below v] < -dear else dear < b.potential[below v] := by
  have hroot : b.potential[root n] = (0 : Int) := h.potential_root.trans scalar_zero_eq
  have hneg := hv.2
  rw [reduced_entryArc, if_pos (h.state_of_violates hp hv), reducedCost_eq_reduced] at hneg
  simp only [Network.reduced, ResidualArc.price, Network.source, Network.target,
    Bool.false_eq_true, if_false, Tableau.cost_artificial, Tableau.head_artificial,
    Tableau.tail_artificial] at hneg ⊢
  by_cases hsupply : p.supply[v] < 0
  · simp only [hsupply, if_true, hroot, below_ne_root, if_false] at hneg ⊢
    omega
  · simp only [hsupply, if_true, hroot, if_false] at hneg ⊢
    omega

/-- A node beyond one level is not near the other one. -/
theorem Consistent.head_iff_of_violates (hp : p.amounts.Prepared)
    (h : Consistent (Tableau.ofProblem p rule dear) p.supply b)
    (hv : Violates (Tableau.ofProblem p rule dear) b (artificial m v)) (hnonneg : 0 ≤ top)
    (hdear : ((n : Int) + 1) * (top + 1) ≤ dear)
    (hnear : |b.potential[below v] - level (Tableau.ofProblem p rule dear) dear u| ≤
      ((n : Int) - 1) * top) :
    (Tableau.ofProblem p rule dear).head[artificial m u] = root n ↔
      (Tableau.ofProblem p rule dear).head[artificial m v] = root n := by
  have hbeyond := h.beyond_level hp hv
  have hapart : ((n : Int) - 1) * top < 2 * dear := by nlinarith
  rw [abs_le] at hnear
  unfold level at hnear
  by_cases hu : (Tableau.ofProblem p rule dear).head[artificial m u] = root n <;>
    by_cases hw : (Tableau.ofProblem p rule dear).head[artificial m v] = root n
  · exact iff_of_true hu hw
  · rw [if_pos hu] at hnear
    rw [if_neg hw] at hbeyond
    omega
  · rw [if_neg hu] at hnear
    rw [if_pos hw] at hbeyond
    omega
  · exact iff_of_false hu hw

/-- The cycle of an artificial arc that violates optimality runs against an artificial arc of the
tree. -/
theorem Consistent.exists_losing (hp : p.amounts.Prepared)
    (h : Consistent (Tableau.ofProblem p rule dear) p.supply b)
    (hv : Violates (Tableau.ofProblem p rule dear) b (artificial m v))
    (htop : ∀ a : Fin m, |p.cost[a]| ≤ top) (hnonneg : 0 ≤ top)
    (hdear : ((n : Int) + 1) * (top + 1) ≤ dear) :
    ∃ u, b.state[artificial m u] = .tree ∧
      ⟨artificial m u, true⟩ ∈ cyclePath (Tableau.ofProblem p rule dear) b (artificial m v) := by
  obtain ⟨vs, u, hvs, hlink, hnear⟩ := h.exists_level htop hnonneg v
  have hhead := h.head_iff_of_violates hp hv hnonneg hdear hnear
  have hlower := h.state_of_violates hp hv
  refine ⟨u, (h.state_tree _).mpr ⟨u, hlink⟩, ?_⟩
  have hmem : u ∈ vs ++ [u] := by simp
  rcases sides_artificial p rule dear h.depths hvs with ⟨hend, hside⟩ | ⟨hend, hside⟩
  · -- both arcs lead to the root, and the cycle comes down from it
    simp only [cycleOf, hlower, if_true] at hend
    have hu := hhead.mpr ((Tableau.head_artificial_eq_root_iff p rule dear v).mpr hend)
    have harc := linkArc_artificial p rule dear hlink false
    rw [if_pos hu] at harc
    refine List.mem_cons_of_mem _ (List.mem_append_left _ ?_)
    exact List.mem_map.mpr ⟨u, hside ▸ hmem, harc⟩
  · -- both arcs lead away from the root, and the cycle goes up to it
    simp only [cycleOf, hlower, if_true] at hend
    have hu : (Tableau.ofProblem p rule dear).head[artificial m u] ≠ root n := by
      rw [Ne, hhead, hend]
      exact below_ne_root v
    have harc := linkArc_artificial p rule dear hlink true
    rw [if_neg hu] at harc
    refine List.mem_cons_of_mem _ (List.mem_append_right _ ?_)
    exact List.mem_map.mpr ⟨u, hside ▸ hmem, harc⟩

end Losing

/-- An arc against which the cycle runs loses the amount of the pivot. -/
theorem Consistent.flow_of_backward {α : Type} [Scalar α] {t : Tableau n m α}
    {supply : Table Int n} {b b' : Basis n m α} {a x : Fin (m + n)} (h : Consistent t supply b)
    (ha : b.state[a] ≠ .tree) (hx : ⟨x, true⟩ ∈ cyclePath t b a)
    (hb' : (pivot t b a).basis? = some b') :
    b'.flow[x] = b.flow[x] - (leaving t b a).amount := by
  rw [h.eq_pivoted ha hb', (pivoted_spec h ha).flow_eq]
  exact getElem_sendAll_of_mem (nodup_cyclePath h.toSpanning ha) hx _ _

/-- A basis from which every pivot is bounded, if artificial arcs cost `dear` and no other arc
costs more than `top` or less than its negative. -/
structure Anchored [ExactCosts] (t : Tableau n m Int) (dear top : Int) (b : Basis n m Int) :
    Prop where
  /-- The way up from a node ends with an artificial arc, whose direction gives the level that the
  potential of the node is near. -/
  near : ∀ v : Fin n, ∃ vs u, Ascent b.parent (below v) (vs ++ [u]) (root n) ∧
    b.link[u] = artificial m u ∧ |b.potential[below v] - level t dear u| ≤ ((n : Int) - 1) * top
  /-- An artificial arc that may enter takes flow from an artificial arc of the tree. -/
  losing : ∀ v : Fin n, (violation t b (artificial m v)).isSome →
    ∃ u, b.state[artificial m u] = .tree ∧
      ⟨artificial m u, true⟩ ∈ cyclePath t b (artificial m v) ∧
      ∀ b', (pivot t b (artificial m v)).basis? = some b' →
        b'.flow[artificial m u] = b.flow[artificial m u] - (leaving t b (artificial m v)).amount
  amount_le : ∀ a, (violation t b a).isSome → (leaving t b a).amount ≤ noCapacity / 2
  pivot_ne : ∀ a cursor, (violation t b a).isSome →
    pivot t { b with cursor := cursor } a ≠ .unbounded

theorem Consistent.anchored [ExactCosts] {p : Problem n m Int} {rule : PivotRule} {dear top : Int}
    {b : Basis n m Int} (hp : p.Prepared)
    (h : Consistent (Tableau.ofProblem p rule dear) p.supply b)
    (htop : ∀ a : Fin m, |p.cost[a]| ≤ top) (hnonneg : 0 ≤ top)
    (hdear : ((n : Int) + 1) * (top + 1) ≤ dear) :
    Anchored (Tableau.ofProblem p rule dear) dear top b where
  near := h.exists_level htop hnonneg
  losing v hv := by
    have hviolates := (isSome_violation hp.tolerance_eq _).mp hv
    obtain ⟨u, htree, hmem⟩ := h.exists_losing hp.amounts hviolates htop hnonneg hdear
    exact ⟨u, htree, hmem, fun b' => h.flow_of_backward hviolates.1 hmem⟩
  amount_le _ ha := h.amount_le_half hp.amounts (state_ne_tree_of_violation ha)
  pivot_ne _ cursor ha :=
    (h.with_cursor cursor).pivot_ne_unbounded hp.amounts (state_ne_tree_of_violation ha)

end NetworkFlow.NetworkSimplex

namespace NetworkFlow.Configuration

open NetworkSimplex

variable {w cw : Width} {c : Configuration w (Word cw)}
  {p : Problem c.nodes c.arcs (Cost.Wide (Word cw))}

/-- On every problem that `prepare` returns, with `top` the largest magnitude of a cost, an
artificial arc costs `(nodes + 1) * (top + 1)` unless that is out of range, every basis to which
pivots lead from the first one is anchored, and the network simplex never answers that the flow
can change without bound. -/
theorem pivots_stay_bounded [ExactCosts] (hp : c.prepare.outcome = .ok (some p))
    (rule : PivotRule) :
    (∀ dear, Tableau.artificialCost p.exact = .ok dear →
      ∃ top, IsLeast {x | 0 ≤ x ∧ ∀ a : Fin c.arcs, |p.exact.cost[a]| ≤ x} top ∧
        dear = ((c.nodes : Int) + 1) * (top + 1) ∧
        ∀ b, Visited (Tableau.ofProblem p.exact rule dear) p.exact b →
          Anchored (Tableau.ofProblem p.exact rule dear) dear top b) ∧
      ∀ fuel, (NetworkSimplex.solve fuel p.exact rule).outcome ≠ .ok .unbounded := by
  have hprepared := c.prepared_of_prepare hp
  have hleast := isLeast_maxMagnitude p.exact.cost
  obtain ⟨hnonneg, htop⟩ := hleast.1
  refine ⟨fun dear hdear => ⟨_, hleast, artificialCost_eq hdear, fun b hb => ?_⟩,
    fun fuel => solve_ne_unbounded hprepared.amounts⟩
  exact (hb.consistent hprepared.amounts).anchored hprepared htop hnonneg
    (artificialCost_eq hdear).ge

/-- On `parallelArcs`, every potential is within `3` of `12` or `-12`. -/
theorem pivots_stay_bounded_parallelArcs :
    letI := ExactCosts.ofWidth .bits128
    parallelArcs.prepare.outcome = .ok (some parallelProblem) ∧
      Tableau.artificialCost parallelProblem.exact = .ok 12 ∧
      ∀ b, Visited (Tableau.ofProblem parallelProblem.exact .blockSearch 12)
          parallelProblem.exact b → ∀ v : Fin 2, ∃ u,
        |b.potential[below v] -
          level (Tableau.ofProblem parallelProblem.exact .blockSearch 12) 12 u| ≤ 3 := by
  let _ := ExactCosts.ofWidth .bits128
  have hdear : Tableau.artificialCost parallelProblem.exact = .ok 12 := by with_unfolding_all rfl
  refine ⟨prepare_parallelArcs, hdear, fun b hb v => ?_⟩
  obtain ⟨top, -, hvalue, hkeep⟩ :=
    (pivots_stay_bounded prepare_parallelArcs .blockSearch).1 12 hdear
  obtain ⟨-, u, -, -, hnear⟩ := (hkeep b hb).near v
  have hnodes : parallelArcs.nodes = 2 := rfl
  rw [hnodes] at hvalue
  have htop : ((parallelArcs.nodes : Int) - 1) * top = 3 := by
    rw [hnodes]
    omega
  exact ⟨u, hnear.trans htop.le⟩

end NetworkFlow.Configuration
