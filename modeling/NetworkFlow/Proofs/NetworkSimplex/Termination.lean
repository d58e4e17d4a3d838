import Mathlib.Data.Fintype.Pigeonhole
import NetworkFlow.Proofs.Iteration
import NetworkFlow.Proofs.NetworkSimplex.Bland

/-!
# When the pivots end

A pivot that changes the flow makes it cheaper, and the cost of a flow within the
capacities is bounded below, so only finitely many pivots change the flow. After
the last of them the degenerate pivots are counted, Bland's rule takes over, and
from then on the states of the arcs decide everything. There are finitely many of
them, so pivots that go on for ever come back to the same states, and by then they
have stranded an arc.

## Main results

* `exists_strands_of_return`: under Bland's rule, the run comes back to a flow and
  states only if it strands an arc on the way.
* `solve_stops_iff`, `networkSimplex_stops_iff`: the run ends exactly if it strands
  arcs only finitely often.
* `networkSimplex_runs_on`: there is a problem on which the run never ends.
-/

namespace NetworkFlow.NetworkSimplex

open scoped ExactCosts

variable {n m : Nat} [ExactCosts] {t : Tableau n m Int} {supply : Table Int n}

/-- The next pivot of the run strands an arc. -/
def StrandsNext (t : Tableau n m Int) (s : Progress n m Int) : Prop :=
  ∃ a, (findEntering t s.basis).1 = some a ∧ Strands t s.basis a

/-- A pivot does not make the flow dearer. -/
theorem costOf_pivotStep (htol : t.tolerance = 0) {s s' : Progress n m Int}
    (hc : Consistent t supply s.basis) (h : pivotStep t s = .next s') :
    costOf t.cost s'.basis.flow ≤ costOf t.cost s.basis.flow := by
  obtain ⟨a, cursor, -, ha, -, hs⟩ := pivotStep_next htol hc h
  have hcost := costOf_pivoted (hc.with_rule s.basis.bland cursor) ha.1
  rw [leaving_with_cursor] at hcost
  have hneg : t.reduced t.cost s.basis.potential (entryArc s.basis a) < 0 := ha.2
  have hnonneg := hc.amount_nonneg ha.1
  rcases hs with ⟨-, rfl⟩ | ⟨-, rfl⟩ <;>
    · apply hcost.trans_le
      show costOf t.cost s.basis.flow + (leaving t s.basis a).amount *
        t.reduced t.cost s.basis.potential (entryArc s.basis a) ≤ _
      nlinarith

/-- A pivot that does not make the flow cheaper is degenerate. -/
theorem degenerate_of_costOf (htol : t.tolerance = 0) {s s' : Progress n m Int}
    (hc : Consistent t supply s.basis) (h : pivotStep t s = .next s')
    (hcost : costOf t.cost s.basis.flow ≤ costOf t.cost s'.basis.flow) :
    ∃ a cursor, (findEntering t s.basis).1 = some a ∧ Violates t s.basis a ∧
      (s.basis.bland → ∀ x, Violates t s.basis x → a ≤ x) ∧ (leaving t s.basis a).amount = 0 ∧
      s' = countDegenerate s (pivoted t { s.basis with cursor := cursor } a) := by
  obtain ⟨a, cursor, hfind, ha, hsmall, hs⟩ := pivotStep_next htol hc h
  refine ⟨a, cursor, hfind, ha, hsmall, ?_⟩
  rcases hs with ⟨hpos, rfl⟩ | hs
  · have hcost' := costOf_pivoted (hc.with_rule s.basis.bland cursor) ha.1
    rw [leaving_with_cursor] at hcost'
    have hneg : t.reduced t.cost s.basis.potential (entryArc s.basis a) < 0 := ha.2
    change costOf t.cost s.basis.flow ≤ costOf t.cost (pivoted t _ a).flow at hcost
    change _ = costOf t.cost s.basis.flow + (leaving t s.basis a).amount *
      t.reduced t.cost s.basis.potential (entryArc s.basis a) at hcost'
    nlinarith
  · exact hs

/-- Under Bland's rule, such a pivot is a degenerate pivot of that rule. -/
theorem blandPivot_of_costOf (htol : t.tolerance = 0) {s s' : Progress n m Int}
    (hc : Consistent t supply s.basis) (h : pivotStep t s = .next s')
    (hcost : costOf t.cost s.basis.flow ≤ costOf t.cost s'.basis.flow) (hb : s.basis.bland) :
    ∃ a, (findEntering t s.basis).1 = some a ∧ BlandPivot t supply s.basis a s'.basis := by
  obtain ⟨a, cursor, hfind, ha, hsmall, hzero, rfl⟩ := degenerate_of_costOf htol hc h hcost
  have hspec := pivoted_spec (hc.with_rule s.basis.bland cursor) ha.1
  have hflow : (pivoted t { s.basis with cursor := cursor } a).flow = s.basis.flow := by
    rw [hspec.flow_eq, leaving_with_cursor, hzero, sendAll_zero]
  have hself := hspec.state_self
  have hstate := hspec.state_eq
  rw [leaving_with_cursor] at hself hstate
  exact ⟨a, hfind, hc, hb, ha, hsmall hb, hzero, hflow, hself, hstate⟩

theorem bland_pivotStep (htol : t.tolerance = 0) {s s' : Progress n m Int}
    (hc : Consistent t supply s.basis) (h : pivotStep t s = .next s') (hb : s.basis.bland) :
    s'.basis.bland := by
  obtain ⟨a, cursor, -, ha, -, hs⟩ := pivotStep_next htol hc h
  have hspec := pivoted_spec (hc.with_rule s.basis.bland cursor) ha.1
  have hbland : (pivoted t { s.basis with cursor := cursor } a).bland = true :=
    hspec.bland_eq.trans hb
  rcases hs with ⟨-, rfl⟩ | ⟨-, rfl⟩
  · exact hbland
  · simp [countDegenerate, hbland]

/-- A sequence of pivots of the run. -/
structure Pivots (t : Tableau n m Int) (supply : Table Int n) (s : Nat → Progress n m Int)
    (count : Nat) : Prop where
  tolerance_eq : t.tolerance = 0
  start : Consistent t supply (s 0).basis
  step : ∀ k < count, pivotStep t (s k) = .next (s (k + 1))

namespace Pivots

variable {s : Nat → Progress n m Int} {count : Nat}

theorem consistent (h : Pivots t supply s count) :
    ∀ k ≤ count, Consistent t supply (s k).basis := by
  intro k
  induction k with
  | zero => exact fun _ => h.start
  | succ k ih =>
      exact fun hk => consistent_pivotStep (ih (by omega)) (h.step k (by omega))

theorem costOf_le (h : Pivots t supply s count) {i j : Nat} (hij : i ≤ j) (hj : j ≤ count) :
    costOf t.cost (s j).basis.flow ≤ costOf t.cost (s i).basis.flow := by
  induction j, hij using Nat.le_induction with
  | base => exact le_refl _
  | succ j hij ih =>
      exact le_trans (costOf_pivotStep h.tolerance_eq (h.consistent j (by omega))
        (h.step j (by omega))) (ih (by omega))

theorem bland (h : Pivots t supply s count) (hb : (s 0).basis.bland) :
    ∀ k ≤ count, (s k).basis.bland := by
  intro k
  induction k with
  | zero => exact fun _ => hb
  | succ k ih =>
      exact fun hk => bland_pivotStep h.tolerance_eq (h.consistent k (by omega))
        (h.step k (by omega)) (ih (by omega))

/-- Pivots under Bland's rule that lead back to the same cost and the same states strand an arc. -/
theorem exists_strands (h : Pivots t supply s count) (hpos : 0 < count)
    (hb : (s 0).basis.bland)
    (hcost : costOf t.cost (s 0).basis.flow ≤ costOf t.cost (s count).basis.flow)
    (hstate : (s 0).basis.state = (s count).basis.state) :
    ∃ k < count, StrandsNext t (s k) := by
  by_contra hnone
  push Not at hnone
  have hbland : ∀ k < count, ∃ a, (findEntering t (s k).basis).1 = some a ∧
      BlandPivot t supply (s k).basis a (s (k + 1)).basis := by
    intro k hk
    have h₁ := h.costOf_le (Nat.zero_le k) hk.le
    have h₂ := h.costOf_le (i := k + 1) (j := count) hk le_rfl
    exact blandPivot_of_costOf h.tolerance_eq (h.consistent k hk.le) (h.step k hk) (by omega)
      (h.bland hb k hk.le)
  obtain ⟨a₀, -⟩ := hbland 0 hpos
  have hpivot : ∀ k, ∃ a, k < count → (findEntering t (s k).basis).1 = some a ∧
      BlandPivot t supply (s k).basis a (s (k + 1)).basis := by
    intro k
    by_cases hk : k < count
    · obtain ⟨a, ha⟩ := hbland k hk
      exact ⟨a, fun _ => ha⟩
    · exact ⟨a₀, fun hlt => absurd hlt hk⟩
  choose a ha using hpivot
  exact no_return (b := fun k => (s k).basis) (a := a) hpos (fun k hk => (ha k hk).2)
    (fun k hk hs => hnone k hk ⟨a k, (ha k hk).1, hs⟩) hstate

end Pivots

/-- Under Bland's rule, the run comes back to a flow and to states only after stranding an arc. -/
theorem exists_strands_of_return (htol : t.tolerance = 0) {start s s' : Progress n m Int}
    (hc : Consistent t supply start.basis) {i j : Nat} (hij : i < j)
    (hi : stateAfter (pivotStep t) start i = some s)
    (hj : stateAfter (pivotStep t) start j = some s') (hb : s.basis.bland)
    (hflow : s'.basis.flow = s.basis.flow) (hstate : s'.basis.state = s.basis.state) :
    ∃ k, i ≤ k ∧ k < j ∧
      ∃ s, stateAfter (pivotStep t) start k = some s ∧ StrandsNext t s := by
  have hall : ∀ d, d ≤ j → ∃ s, stateAfter (pivotStep t) start (j - d) = some s := by
    intro d
    induction d with
    | zero => exact fun _ => ⟨s', hj⟩
    | succ d ih =>
        intro hd
        obtain ⟨s₂, h₂⟩ := ih (by omega)
        rw [show j - d = j - (d + 1) + 1 by omega] at h₂
        obtain ⟨s₁, h₁, -⟩ := exists_step_of_stateAfter h₂
        exact ⟨s₁, h₁⟩
  have hstates : ∀ k, ∃ s, k ≤ j - i → stateAfter (pivotStep t) start (i + k) = some s := by
    intro k
    by_cases hk : k ≤ j - i
    · obtain ⟨s, hs⟩ := hall (j - (i + k)) (by omega)
      rw [show j - (j - (i + k)) = i + k by omega] at hs
      exact ⟨s, fun _ => hs⟩
    · exact ⟨s, fun h => absurd h hk⟩
  choose states hstates using hstates
  have hzero : states 0 = s := by
    have := hstates 0 (by omega)
    rw [Nat.add_zero, hi] at this
    exact (Option.some.inj this).symm
  have hlast : states (j - i) = s' := by
    have := hstates (j - i) le_rfl
    rw [show i + (j - i) = j by omega, hj] at this
    exact (Option.some.inj this).symm
  have hpivots : Pivots t supply states (j - i) := by
    refine ⟨htol, ?_, fun k hk => ?_⟩
    · exact stateAfter_invariant (P := fun s => Consistent t supply s.basis)
        (fun _ _ => consistent_pivotStep) hc (hstates 0 (by omega))
    · exact (stateAfter_succ (hstates k hk.le)).mp (hstates (k + 1) hk)
  obtain ⟨k, hk, hstrands⟩ := hpivots.exists_strands (by omega) (hzero ▸ hb)
    (by rw [hzero, hlast, hflow]) (by rw [hzero, hlast, hstate])
  exact ⟨i + k, by omega, by omega, states k, hstates k hk.le, hstrands⟩

section Tail

variable {s : Nat → Progress n m Int}

omit [ExactCosts] in
/-- The cost of a flow within the capacities is bounded below. -/
theorem exists_le_costOf (t : Tableau n m Int) :
    ∃ low, ∀ flow, t.Within flow → low ≤ costOf t.cost flow := by
  refine ⟨-∑ a : Fin (m + n), |t.cost[a]| * t.cap[a], fun flow hflow => ?_⟩
  rw [costOf, ← Finset.sum_neg_distrib]
  apply Finset.sum_le_sum
  intro a _
  obtain ⟨hlo, hhi⟩ := hflow a
  have habs := neg_abs_le t.cost[a]
  have hnonneg := abs_nonneg t.cost[a]
  nlinarith

/-- After some number of pivots, the cost stays as it is. -/
theorem exists_costOf_eq (h : ∀ count, Pivots t supply s count) :
    ∃ N, ∀ k ≥ N, costOf t.cost (s k).basis.flow = costOf t.cost (s N).basis.flow := by
  obtain ⟨low, hlow⟩ := exists_le_costOf t
  have hbound : ∀ k, low ≤ costOf t.cost (s k).basis.flow :=
    fun k => hlow _ ((h k).consistent k le_rfl).within
  obtain ⟨N, hmin⟩ : ∃ N, ∀ k, (costOf t.cost (s N).basis.flow - low).toNat ≤
      (costOf t.cost (s k).basis.flow - low).toNat := by
    let above : Nat → Nat := fun k => (costOf t.cost (s k).basis.flow - low).toNat
    exact ⟨Function.argmin above, fun k => Function.argmin_le above k⟩
  refine ⟨N, fun k hk => ?_⟩
  have hle := (h k).costOf_le hk le_rfl
  have h₁ := hbound k
  have h₂ := hbound N
  have h₃ := hmin k
  omega

/-- After a run of degenerate pivots, Bland's rule is in force. -/
theorem exists_bland (h : ∀ count, Pivots t supply s count) {N : Nat}
    (hN : ∀ k ≥ N, costOf t.cost (s k).basis.flow = costOf t.cost (s N).basis.flow) :
    (s (N + degenerateLimit (m + n) + 1)).basis.bland := by
  have hstep : ∀ k, ∃ b, s (N + k + 1) = countDegenerate (s (N + k)) b := by
    intro k
    obtain ⟨a, cursor, -, -, -, -, heq⟩ := degenerate_of_costOf (h 0).tolerance_eq
      ((h (N + k)).consistent (N + k) le_rfl) ((h (N + k + 1)).step (N + k) (by omega))
      (by rw [hN (N + k) (by omega), hN (N + k + 1) (by omega)])
    exact ⟨_, heq⟩
  have hcount : ∀ k, k ≤ (s (N + k)).degenerate := by
    intro k
    induction k with
    | zero => exact Nat.zero_le _
    | succ k ih =>
        obtain ⟨b, hb⟩ := hstep k
        rw [← Nat.add_assoc, hb]
        exact Nat.succ_le_succ ih
  obtain ⟨b, hb⟩ := hstep (degenerateLimit (m + n))
  have hlimit := hcount (degenerateLimit (m + n))
  rw [hb]
  simp only [countDegenerate]
  cases b.bland
  · simp only [Bool.not_false, Bool.true_and, Bool.false_or, decide_eq_true_eq]
    omega
  · simp

/-- The pivots after some number of them. -/
theorem Pivots.shift (h : ∀ count, Pivots t supply s count) (start count : Nat) :
    Pivots t supply (fun k => s (start + k)) count :=
  ⟨(h 0).tolerance_eq, (h start).consistent start le_rfl,
    fun k _ => (h (start + k + 1)).step (start + k) (by omega)⟩

theorem bland_of_le (h : ∀ count, Pivots t supply s count) {i j : Nat} (hij : i ≤ j)
    (hb : (s i).basis.bland) : (s j).basis.bland := by
  obtain ⟨d, rfl⟩ := Nat.exists_eq_add_of_le hij
  exact (Pivots.shift h i d).bland hb d le_rfl

instance : Finite ArcState :=
  Finite.of_injective (fun | .upper => (0 : Fin 3) | .tree => 1 | .lower => 2)
    (by intro x y; cases x <;> cases y <;> simp)

omit [ExactCosts] in
/-- There are finitely many states of the arcs, so they come back. -/
theorem exists_return (s : Nat → Progress n m Int) (far : Nat) :
    ∃ i j, far ≤ i ∧ i < j ∧ (s i).basis.state = (s j).basis.state := by
  obtain ⟨i, j, hij, heq⟩ := Finite.exists_ne_map_eq_of_infinite
    fun k => fun x : Fin (m + n) => (s (far + k)).basis.state[x]
  rcases lt_or_gt_of_ne hij with hlt | hlt
  · exact ⟨far + i, far + j, by omega, by omega, Table.ext fun x => congrFun heq x⟩
  · exact ⟨far + j, far + i, by omega, by omega, Table.ext fun x => (congrFun heq x).symm⟩

/-- Pivots that go on for ever strand arcs again and again. -/
theorem exists_strandsNext (h : ∀ count, Pivots t supply s count) (M : Nat) :
    ∃ k ≥ M, StrandsNext t (s k) := by
  obtain ⟨N, hN⟩ := exists_costOf_eq h
  have hbland := exists_bland h hN
  -- far enough out, the cost stays and Bland's rule is in force
  obtain ⟨i, j, hfar, hij, hstate⟩ := exists_return s (N + degenerateLimit (m + n) + 1 + M)
  have hend : i + (j - i) = j := by omega
  obtain ⟨k, -, hstrands⟩ := (Pivots.shift h i (j - i)).exists_strands (by omega)
    (bland_of_le h (by omega) hbland)
    (by
      show costOf t.cost (s i).basis.flow ≤ costOf t.cost (s (i + (j - i))).basis.flow
      rw [hN i (by omega), hN (i + (j - i)) (by omega)])
    (by
      show (s i).basis.state = (s (i + (j - i))).basis.state
      rw [hend, hstate])
  exact ⟨i + k, by omega, hstrands⟩

end Tail

/-- The run ends if it strands arcs only finitely often. -/
theorem stops_of_strands_finitely (htol : t.tolerance = 0) {start : Progress n m Int}
    (hc : Consistent t supply start.basis)
    (hfin : ∃ N, ∀ k ≥ N, ∀ s, stateAfter (pivotStep t) start k = some s → ¬ StrandsNext t s) :
    ∃ k, stateAfter (pivotStep t) start k = none := by
  by_contra hnone
  push Not at hnone
  have hstates : ∀ k, ∃ s, stateAfter (pivotStep t) start k = some s := by
    intro k
    exact Option.ne_none_iff_exists'.mp (hnone k)
  choose s hs using hstates
  have hzero : s 0 = start := (Option.some.inj (hs 0)).symm
  have hpivots : ∀ count, Pivots t supply s count := by
    intro count
    exact ⟨htol, hzero ▸ hc, fun k _ => (stateAfter_succ (hs k)).mp (hs (k + 1))⟩
  obtain ⟨N, hN⟩ := hfin
  obtain ⟨k, hk, hstrands⟩ := exists_strandsNext hpivots N
  exact hN k hk (s k) (hs k) hstrands

/-- The state of the run on a problem after a number of pivots, if it gets so far. -/
def Passes (p : Problem n m Int) (rule : PivotRule) (k : Nat) (t : Tableau n m Int)
    (s : Progress n m Int) : Prop :=
  ∃ dear, Tableau.artificialCost p = .ok dear ∧ t = Tableau.ofProblem p rule dear ∧
    stateAfter (pivotStep t) (firstProgress t p) k = some s

/-- After a number of pivots, the next one strands an arc. -/
def StrandsAt (p : Problem n m Int) (rule : PivotRule) (k : Nat) : Prop :=
  ∃ t s, Passes p rule k t s ∧ StrandsNext t s

/-- Once the artificial arcs have a cost, nothing but the end of the pivots is needed. -/
theorem outcome_solve_eq {p : Problem n m Int} {rule : PivotRule} {dear : Int}
    (hdear : Tableau.artificialCost p = .ok dear) (fuel : Nat) :
    (solve fuel p rule).outcome = (Logged.ofRun (run (Tableau.ofProblem p rule dear) fuel
      (firstProgress (Tableau.ofProblem p rule dear) p)) >>= Finish.report).outcome := by
  simp only [solve_eq, hdear, inRange_exact]
  rfl

/-- Once the artificial arcs have a cost, there is an answer if the pivots end. -/
theorem returns_solve_iff {p : Problem n m Int} {rule : PivotRule} {dear : Int}
    (hdear : Tableau.artificialCost p = .ok dear) (fuel : Nat) :
    (solve fuel p rule).Returns ↔ ∃ finish, run (Tableau.ofProblem p rule dear) fuel
      (firstProgress (Tableau.ofProblem p rule dear) p) = .ok finish := by
  unfold Logged.Returns
  rw [outcome_solve_eq hdear, Logged.outcome_bind]
  cases run (Tableau.ofProblem p rule dear) fuel
      (firstProgress (Tableau.ofProblem p rule dear) p) with
  | error why => simp [Logged.ofRun, Except.bind]
  | ok finish => simp [Logged.ofRun, Logged.ofValue, Except.bind, Finish.outcome_report]

/-- The network simplex finds an answer exactly if it strands arcs only finitely often. -/
theorem solve_stops_iff {p : Problem n m Int} (hp : p.Prepared) (rule : PivotRule) :
    (∃ fuel, (solve fuel p rule).Returns) ↔
      ∃ N, ∀ k ≥ N, ¬ StrandsAt p rule k := by
  cases hdear : Tableau.artificialCost p with
  | error cause =>
      -- too dear artificial arcs are refused before the first pivot
      have hsolve : (solve 0 p rule).outcome = .error (.refused cause) := by
        simp only [solve_eq, hdear, inRange_exact]
        rfl
      refine ⟨fun _ => ⟨0, ?_⟩, fun _ => ⟨0, by simp [Logged.Returns, hsolve]⟩⟩
      rintro k - ⟨t, s, ⟨dear, hdear', -⟩, -⟩
      rw [hdear] at hdear'
      cases hdear'
  | ok dear =>
      have hrun : (∃ fuel, (solve fuel p rule).Returns) ↔
          ∃ k, stateAfter (pivotStep (Tableau.ofProblem p rule dear))
            (firstProgress (Tableau.ofProblem p rule dear) p) k = none := by
        simp only [returns_solve_iff hdear, run_exact_eq]
        exact exists_iterate_iff
      rw [hrun]
      constructor
      · rintro ⟨N, hN⟩
        refine ⟨N, ?_⟩
        rintro k hk ⟨t, s, ⟨dear', hdear', rfl, hs⟩, -⟩
        obtain rfl : dear = dear' := by
          rw [hdear] at hdear'
          exact Except.ok.inj hdear'
        rw [stateAfter_none_of_le hk hN] at hs
        cases hs
      · rintro ⟨N, hN⟩
        exact stops_of_strands_finitely hp.tolerance_eq (consistent_start hp.amounts rule dear)
          ⟨N, fun k hk s hs hstrands => hN k hk ⟨_, s, ⟨dear, hdear, rfl, hs⟩, hstrands⟩⟩

end NetworkFlow.NetworkSimplex

namespace NetworkFlow.Configuration

open NetworkSimplex

variable {w cw : Width} {c : Configuration w (Word cw)}
  {p : Problem c.nodes c.arcs (Cost.Wide (Word cw))}

/-- On every problem that `prepare` returns, under every rule:

* the network simplex finds an answer exactly if it strands arcs only finitely often;
* under Bland's rule, it comes back to a flow and to states only after stranding an arc;
* if every arc has a positive capacity, it never strands an arc. -/
theorem networkSimplex_stops_iff [ExactCosts] (hp : c.prepare.outcome = .ok (some p))
    (rule : PivotRule) :
    ((∃ fuel, (NetworkSimplex.solve fuel p.exact rule).Returns) ↔
        ∃ N, ∀ k ≥ N, ¬ StrandsAt p.exact rule k) ∧
      (∀ t s s' i j, i < j → Passes p.exact rule i t s → Passes p.exact rule j t s' →
        s.basis.bland → s'.basis.flow = s.basis.flow → s'.basis.state = s.basis.state →
          ∃ k, i ≤ k ∧ k < j ∧ StrandsAt p.exact rule k) ∧
      ((∀ a : Fin c.arcs, 0 < p.cap[a]) → ∀ k, ¬ StrandsAt p.exact rule k) := by
  have hprepared := c.prepared_of_prepare hp
  refine ⟨solve_stops_iff hprepared rule, ?_, ?_⟩
  · rintro t s s' i j hij ⟨dear, hdear, rfl, hs⟩ ⟨-, -, -, hs'⟩ hb hflow hstate
    obtain ⟨k, hik, hkj, x, hx, hstrands⟩ := exists_strands_of_return hprepared.tolerance_eq
      (consistent_start hprepared.amounts rule dear) hij hs hs' hb hflow hstate
    exact ⟨k, hik, hkj, _, x, ⟨dear, hdear, rfl, hx⟩, hstrands⟩
  · rintro hcap k ⟨t, s, ⟨dear, hdear, rfl, -⟩, a, -, r, -, -, -, hzero⟩
    have hpos : ∀ x : Fin (c.arcs + c.nodes),
        0 < (Tableau.ofProblem p.exact rule dear).cap[x] := by
      intro x
      refine Fin.addCases (fun x => ?_) (fun v => ?_) x
      · rw [Tableau.cap_castAdd]
        exact hcap x
      · exact lt_of_lt_of_eq (by decide) (Tableau.cap_artificial p.exact rule dear v).symm
    have := hpos r.arc
    omega

/-- With positive capacities the pivots end. -/
theorem networkSimplex_stops_parallelArcs :
    parallelArcs.prepare.outcome = .ok (some parallelProblem) ∧
      ∃ fuel, (@NetworkSimplex.solve _ _ _ (Scalar.exact .bits128) fuel parallelProblem.exact
        .bland).Returns := by
  let _ := ExactCosts.ofWidth .bits128
  have hstops := networkSimplex_stops_iff prepare_parallelArcs .bland
  have hcap : ∀ a : Fin 2, 0 < parallelProblem.cap[a] := by decide +kernel
  exact ⟨prepare_parallelArcs, hstops.1.mpr ⟨0, fun k _ => hstops.2.2 hcap k⟩⟩

/-- Two nodes, and three arcs between them whose costs are all negative; two of the arcs have
no capacity. -/
def carousel : Configuration .bits64 (Word .bits64) where
  graph := { id := ⟨0⟩, nodeCount := 2, ends := #[⟨0, 1⟩, ⟨0, 1⟩, ⟨1, 0⟩], below := by decide }
  upper := some { graph := ⟨0⟩, values := #[⟨1, Width.fits_one _⟩, default, default], fill := default }
  cost := some
    { graph := ⟨0⟩, values := #[⟨-1, by decide⟩, ⟨-2, by decide⟩, ⟨-2, by decide⟩]
      fill := default }

/-- The finite problem of `carousel`. -/
def carouselProblem : Problem 2 3 (Word .bits128) := carousel.toProblem (.const 2 0) 0

/-- The tableau of `carousel`. -/
def carouselTableau : Tableau 2 3 Int where
  tail := ⟨#v[0, 0, 1, 0, 1]⟩
  head := ⟨#v[1, 1, 0, 2, 2]⟩
  cap := ⟨#v[1, 0, 0, noCapacity, noCapacity]⟩
  cost := ⟨#v[-1, -2, -2, 9, 9]⟩
  tolerance := 0
  rule := .bland
  blockSize := 10

/-- The tree of artificial arcs of `carousel`. -/
def carouselStart : Basis 2 3 Int where
  flow := .const 5 0
  state := ⟨#v[.lower, .lower, .lower, .tree, .tree]⟩
  parent := ⟨#v[2, 2]⟩
  link := ⟨#v[3, 4]⟩
  depth := ⟨#v[1, 1, 0]⟩
  potential := ⟨#v[-9, -9, 0]⟩
  children :=
    { first := ⟨#v[none, none, some 1]⟩
      next := ⟨#v[none, some 0]⟩
      prev := ⟨#v[some 1, none]⟩ }
  bland := true
  cursor := 0

/-- A basis of `carousel` in which the first node hangs below the second one by one of the
arcs between them. -/
def carouselBasis (link : Fin 5) (height : Int) : Basis 2 3 Int where
  flow := .const 5 0
  state := ((Table.const 5 ArcState.lower).set link .tree).set 4 .tree
  parent := ⟨#v[1, 2]⟩
  link := ⟨#v[link, 4]⟩
  depth := ⟨#v[2, 1, 0]⟩
  potential := ⟨#v[height, -9, 0]⟩
  children := { first := ⟨#v[none, some 0, some 1]⟩, next := .const 2 none, prev := .const 2 none }
  bland := true
  cursor := 0

/-- Bland's rule takes this arc into the basis, which changes nothing but the tree. -/
private def TurnsTo [Scalar Int] (b : Basis 2 3 Int) (a : Fin 5) (b' : Basis 2 3 Int) : Prop :=
  findEntering carouselTableau b = (some a, 0) ∧ pivot carouselTableau b a = .degenerate b'

/-- The bases of `carousel` that Bland's rule comes through. -/
private def OnCarousel (b : Basis 2 3 Int) : Prop :=
  b = carouselStart ∨ b = carouselBasis 0 (-8) ∨ b = carouselBasis 1 (-7) ∨
    b = carouselBasis 2 (-11)

private theorem exists_turnsTo {b : Basis 2 3 Int} (h : OnCarousel b) :
    ∃ a b', @TurnsTo (Scalar.exact .bits128) b a b' ∧ OnCarousel b' := by
  rcases h with rfl | rfl | rfl | rfl
  · exact ⟨0, carouselBasis 0 (-8), ⟨rfl, rfl⟩, Or.inr (Or.inl rfl)⟩
  · exact ⟨1, carouselBasis 1 (-7), ⟨rfl, rfl⟩, Or.inr (Or.inr (Or.inl rfl))⟩
  · exact ⟨2, carouselBasis 2 (-11), ⟨rfl, rfl⟩, Or.inr (Or.inr (Or.inr rfl))⟩
  · exact ⟨0, carouselBasis 0 (-8), ⟨rfl, rfl⟩, Or.inr (Or.inl rfl)⟩

private theorem OnCarousel.resting {b : Basis 2 3 Int} (h : OnCarousel b) :
    b.cursor = 0 ∧ b.bland = true := by
  rcases h with rfl | rfl | rfl | rfl <;> exact ⟨rfl, rfl⟩

private theorem exists_pivotStep_of_onCarousel {s : Progress 2 3 Int} (h : OnCarousel s.basis) :
    ∃ s', @pivotStep _ _ _ (Scalar.exact .bits128) carouselTableau s = .next s' ∧
      OnCarousel s'.basis := by
  let _ := Scalar.exact .bits128
  obtain ⟨a, b, hturn, hb⟩ := exists_turnsTo h
  have hpivot : pivot carouselTableau { s.basis with cursor := 0 } a = .degenerate b := by
    rw [← hturn.2, ← h.resting.1]
  have hbasis : (countDegenerate s b).basis = b := by
    simp only [countDegenerate, hb.resting.2, Bool.true_or]
    rw [← hb.resting.2]
  refine ⟨countDegenerate s b, ?_, by rwa [hbasis]⟩
  simp only [pivotStep, hturn.1]
  rw [hpivot]

/-- On `carousel`, Bland's rule goes round and round: each of the three arcs takes the place of
the one before, and none of them ever carries anything. -/
theorem networkSimplex_runs_on :
    carousel.prepare.outcome = .ok (some carouselProblem) ∧
      ∀ fuel, (@NetworkSimplex.solve _ _ _ (Scalar.exact .bits128) fuel carouselProblem.exact
        .bland).outcome = .error .outOfFuel := by
  let _ := ExactCosts.ofWidth .bits128
  have htableau : Tableau.ofProblem carouselProblem.exact .bland 9 = carouselTableau := by
    with_unfolding_all rfl
  have hstart : Basis.start carouselTableau carouselProblem.exact = carouselStart := by
    with_unfolding_all rfl
  have hdear : Tableau.artificialCost carouselProblem.exact = .ok 9 := by
    with_unfolding_all rfl
  refine ⟨by with_unfolding_all rfl, fun fuel => ?_⟩
  have hrun : run carouselTableau fuel (firstProgress carouselTableau carouselProblem.exact) =
      .error .outOfFuel := by
    rw [run_exact_eq]
    refine iterate_eq_outOfFuel (P := fun s => OnCarousel s.basis) (fun s hs => ?_)
      (Or.inl hstart) fuel
    obtain ⟨s', hnext, hs'⟩ := exists_pivotStep_of_onCarousel hs
    exact ⟨s', congrArg Except.ok hnext, hs'⟩
  show (NetworkSimplex.solve fuel carouselProblem.exact .bland).outcome = _
  rw [outcome_solve_eq hdear, htableau, hrun]
  rfl

end NetworkFlow.Configuration
