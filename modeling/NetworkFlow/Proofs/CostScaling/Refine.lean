import NetworkFlow.Proofs.CostScaling.Sound
import NetworkFlow.Proofs.Reach

/-!
# Refinements end

A node is lowered only when none of its residual arcs is admissible, and then by
`epsilon` at least. It cannot sink without a bound: if some flow meets the supplies,
a node with an excess reaches one with a deficit, whose potential is still the first
one, and along the way potentials rise by no more than the costs and `epsilon`. The
same way shows that a node with an excess is never stuck.

Between two lowerings, pushes go along arcs of negative reduced cost, and so make the
flow cheaper in reduced costs.

## Main results

* `dischargeStep_spec`: what a step of a discharge does.
* `exists_refine`, `refine_spec`: a refinement ends with a feasible flow that is optimal
  up to `epsilon`.
-/

namespace NetworkFlow.CostScaling

open Finset Relation
open scoped ExactCosts

variable {n m : Nat} {p : Scaled n m Int} {epsilon : Int} {first : Table Int n}
  {s s' : State n m Int} {u : Fin n} {fuel : Nat}

/-- No residual arc with room has a reduced cost below `-epsilon`, none of those tried has a
negative one, and nodes with a deficit have their first potential. -/
structure Refining (p : Scaled n m Int) (epsilon : Int) (first : Table Int n)
    (s : State n m Int) : Prop extends Sound p s where
  optimal : ∀ r, 0 < p.room s.flow r → -epsilon ≤ p.reduced p.scaledCost s.potential r
  tried : ∀ v : Fin n, ∀ r ∈ p.rows[v].toList.take s.current[v], 0 < p.room s.flow r →
    0 ≤ p.reduced p.scaledCost s.potential r
  deficit : ∀ v : Fin n, s.excess[v] < 0 → s.potential[v] = first[v]

section Bound

/-- Along residual arcs that lead toward a feasible flow, a node with an excess reaches a node with
a deficit. -/
theorem Sound.toward_deficit (h : Sound p s) {flow : Table Int m} (hflow : p.Feasible flow)
    (hu : 0 < s.excess[u]) :
    ∃ v : Fin n, s.excess[v] < 0 ∧ ReflTransGen (p.Toward s.flow flow) u v := by
  obtain ⟨nodes, hnodes⟩ := exists_reached (p.Toward s.flow flow) u
  have hcut : ∑ v ∈ nodes, p.outflow flow v ≤ ∑ v ∈ nodes, p.outflow s.flow v :=
    p.sum_outflow_le_of_room fun r hless hr =>
      (hnodes _).mpr (((hnodes _).mp hr).tail ⟨r, hless, rfl, rfl⟩)
  by_contra hnone
  push Not at hnone
  have hless : ∑ v ∈ nodes, p.outflow s.flow v < ∑ v ∈ nodes, p.outflow flow v := by
    refine sum_lt_sum (fun v hv => ?_) ⟨u, (hnodes u).mpr .refl, ?_⟩
    · have h₁ := h.balanced v
      have h₂ := hflow.balanced v
      have h₃ : 0 ≤ s.excess[v] := by
        by_contra hneg
        exact hnone v (not_le.mp hneg) ((hnodes v).mp hv)
      omega
    · have h₁ := h.balanced u
      have h₂ := hflow.balanced u
      omega
  omega

/-- If some flow is feasible, a node with an excess reaches a node with a deficit. -/
theorem Sound.reaches_deficit (h : Sound p s) (hfeasible : ∃ flow, p.Feasible flow)
    (hu : 0 < s.excess[u]) :
    ∃ v : Fin n, s.excess[v] < 0 ∧ ReflTransGen (p.Open s.flow) u v := by
  obtain ⟨flow, hflow⟩ := hfeasible
  obtain ⟨v, hv, hreach⟩ := h.toward_deficit hflow hu
  have hopen : ∀ v w, p.Toward s.flow flow v w → p.Open s.flow v w :=
    fun v w hstep => hstep.toOpen hflow.within
  exact ⟨v, hv, ReflTransGen.mono hopen u v hreach⟩

/-- A node with an excess has a residual arc with room. -/
theorem Sound.exists_open (h : Sound p s) (hfeasible : ∃ flow, p.Feasible flow)
    (hu : 0 < s.excess[u]) : ∃ r, p.source r = u ∧ 0 < p.room s.flow r := by
  obtain ⟨v, hv, hreach⟩ := h.reaches_deficit hfeasible hu
  obtain ⟨w, ⟨r, hroom, hr, -⟩, -⟩ := hreach.cases_head.resolve_left (by
    rintro rfl
    omega)
  exact ⟨r, hr, hroom⟩

/-- By how much a potential can rise along a residual arc with room. -/
def rise (p : Scaled n m Int) (epsilon : Int) : Int :=
  ∑ a : Fin m, |p.scaledCost[a]| + epsilon

/-- No node sinks below this potential. -/
def floor (p : Scaled n m Int) (epsilon : Int) (first : Table Int n) : Int :=
  -(∑ v : Fin n, |first[v]|) - ((n : Int) - 1) * rise p epsilon

theorem price_le_sum (cost : Table Int m) (r : ResidualArc m) :
    r.price cost ≤ ∑ a : Fin m, |cost[a]| := by
  have hsingle : |cost[r.arc]| ≤ ∑ a : Fin m, |cost[a]| :=
    single_le_sum (f := fun a : Fin m => |cost[a]|) (fun a _ => abs_nonneg _) (mem_univ r.arc)
  have h₁ := le_abs_self cost[r.arc]
  have h₂ := neg_abs_le cost[r.arc]
  unfold ResidualArc.price
  split <;> omega

/-- A node with an excess has not sunk below the floor. -/
theorem Refining.floor_le (h : Refining p epsilon first s) (hepsilon : 1 ≤ epsilon)
    (hfeasible : ∃ flow, p.Feasible flow) (hu : 0 < s.excess[u]) :
    floor p epsilon first ≤ s.potential[u] := by
  obtain ⟨v, hv, hreach⟩ := h.reaches_deficit hfeasible hu
  have hstep : ∀ v w, p.Open s.flow v w → s.potential[w] ≤ s.potential[v] + rise p epsilon := by
    rintro v w ⟨r, hroom, rfl, rfl⟩
    have hreduced := h.optimal r hroom
    have hprice := price_le_sum p.scaledCost r
    unfold Network.reduced at hreduced
    unfold rise
    omega
  have hnonneg : 0 ≤ rise p epsilon := by
    have : 0 ≤ ∑ a : Fin m, |p.scaledCost[a]| := sum_nonneg fun a _ => abs_nonneg _
    unfold rise
    omega
  have hle := le_add_of_reaches (f := fun v : Fin n => s.potential[v]) hnonneg hstep hreach
  have hfirst : |first[v]| ≤ ∑ v : Fin n, |first[v]| :=
    single_le_sum (f := fun v : Fin n => |first[v]|) (fun v _ => abs_nonneg _) (mem_univ v)
  have habs := neg_abs_le first[v]
  rw [h.deficit v hv] at hle
  unfold floor
  omega

end Bound

section Progress

/-- The reduced costs of the arcs. -/
def reducedCosts (p : Scaled n m Int) (potential : Table Int n) : Table Int m :=
  .ofFn fun a => p.reduced p.scaledCost potential ⟨a, false⟩

theorem price_reducedCosts (potential : Table Int n) (r : ResidualArc m) :
    r.price (reducedCosts p potential) = p.reduced p.scaledCost potential r := by
  obtain ⟨a, backward⟩ := r
  cases backward with
  | false => simp [ResidualArc.price, reducedCosts]
  | true =>
      have := p.reduced_reverse p.scaledCost potential ⟨a, false⟩
      simpa [ResidualArc.price, reducedCosts, ResidualArc.reverse] using this.symm

/-- What is left to be done: how far the nodes can sink, how much cheaper the flow can get, and
the arcs that are still to be tried. -/
def progress (p : Scaled n m Int) (floor : Int) (s : State n m Int) : Nat ×ₗ Nat ×ₗ Nat :=
  left (fun v : Fin n => (s.potential[v] - floor).toNat) (p.slack (reducedCosts p s.potential) s.flow)
    fun v : Fin n => p.rows[v].size - s.current[v]

variable {floor : Int}

theorem progress_lt_of_potential {w : Fin n} (hw : s'.potential[w] < s.potential[w])
    (hfloor : floor ≤ s'.potential[w])
    (hsame : ∀ v : Fin n, v ≠ w → s'.potential[v] = s.potential[v]) :
    progress p floor s' < progress p floor s :=
  left_lt_of_height (w := w) (by omega) fun v hv => by rw [hsame v hv]

theorem progress_lt_of_flow (hpotential : s'.potential = s.potential) (hwithin : p.Within s'.flow)
    (hless : costOf (reducedCosts p s.potential) s'.flow <
      costOf (reducedCosts p s.potential) s.flow) :
    progress p floor s' < progress p floor s := by
  unfold progress
  rw [hpotential]
  exact left_lt_of_slack (hwithin.slack_lt hless)

theorem progress_lt_of_current {w : Fin n} (hpotential : s'.potential = s.potential)
    (hflow : s'.flow = s.flow) (hw : s.current[w] < s'.current[w])
    (hlt : s.current[w] < p.rows[w].size)
    (hsame : ∀ v : Fin n, v ≠ w → s'.current[v] = s.current[v]) :
    progress p floor s' < progress p floor s := by
  unfold progress
  rw [hpotential, hflow]
  exact left_lt_of_untried (w := w) (by omega) fun v hv => by rw [hsame v hv]

end Progress

section Step

variable [inst : ExactCosts]

/-- A push along an admissible residual arc keeps the refinement going and makes progress. -/
theorem Refining.push (h : Refining p epsilon first s)
    (hepsilon : 1 ≤ epsilon) (hu : 0 < s.excess[u]) {r : ResidualArc m} (hr : p.source r = u)
    (hadmissible : admissible p s r = true) (low : Int) :
    Refining p epsilon first (push p s r (min s.excess[u] (p.room s.flow r))) ∧
      progress p low (push p s r (min s.excess[u] (p.room s.flow r))) < progress p low s := by
  obtain ⟨hroom, hneg⟩ := (admissible_iff s r).mp hadmissible
  have hamount : 0 < min s.excess[u] (p.room s.flow r) := lt_min hu hroom
  have hle : min s.excess[u] (p.room s.flow r) ≤ s.excess[u] := min_le_left _ _
  have hsound := h.toSound.push hamount.le (min_le_right _ _)
  have hopen : ∀ r', 0 < p.room (CostScaling.push p s r
      (min s.excess[u] (p.room s.flow r))).flow r' →
      0 < p.room s.flow r' ∨ r' = r.reverse :=
    fun r' hr' => p.open_of_open_sendAlong hamount.le hr'
  have hreverse : p.reduced p.scaledCost s.potential r.reverse =
      -p.reduced p.scaledCost s.potential r := p.reduced_reverse _ _ _
  refine ⟨⟨hsound, fun r' hr' => ?_, fun v r' hmem hr' => ?_, fun v hv => ?_⟩, ?_⟩
  · rcases hopen r' hr' with hr' | rfl
    · exact h.optimal r' hr'
    · show -epsilon ≤ p.reduced p.scaledCost s.potential r.reverse
      omega
  · rcases hopen r' hr' with hr' | rfl
    · exact h.tried v r' hmem hr'
    · show 0 ≤ p.reduced p.scaledCost s.potential r.reverse
      omega
  · apply h.deficit v
    rw [getElem_excess_push] at hv
    by_cases hsource : p.source r = v
    · have hvu : v = u := hsource.symm.trans hr
      subst hvu
      simp only [hsource, if_true] at hv
      split at hv <;> omega
    · simp only [hsource, if_false] at hv
      split at hv <;> omega
  · refine progress_lt_of_flow rfl hsound.within ?_
    show costOf _ (sendAlong s.flow r _) < _
    rw [costOf_sendAlong, price_reducedCosts]
    have := mul_neg_of_pos_of_neg hamount hneg
    omega

omit inst in
/-- Lowering a node does not make the arcs of other nodes cheaper. -/
theorem reduced_le_reduced_set {potential : Table Int n} {low : Int} (hlow : low ≤ potential[u])
    {r : ResidualArc m} (hr : p.source r ≠ u) : p.reduced p.scaledCost potential r ≤
      p.reduced p.scaledCost (potential.set u low) r := by
  have hdrop : (potential.set u low)[p.target r] ≤ potential[p.target r] := by
    rw [Table.getElem_set]
    split
    · rename_i ht
      exact ht ▸ hlow
    · exact le_refl _
  unfold Network.reduced
  rw [Table.getElem_set_of_ne _ _ (Ne.symm hr)]
  omega

omit inst in
/-- An arc of a node lowered to `epsilon` below what the arc allows is cheap by no more than
`epsilon`. -/
theorem neg_le_reduced_set {best : Int} {r : ResidualArc m} (hr : p.source r = u)
    (hge : allowed p s r ≤ best) (hepsilon : 0 ≤ epsilon)
    (hnonneg : 0 ≤ p.reduced p.scaledCost s.potential r) :
    -epsilon ≤ p.reduced p.scaledCost (s.potential.set u (best - epsilon)) r := by
  unfold Network.reduced allowed at *
  rw [hr, Table.getElem_set_self]
  by_cases ht : p.target r = u
  · rw [ht, Table.getElem_set_self]
    rw [hr, ht] at hnonneg
    omega
  · rw [Table.getElem_set_of_ne _ _ (Ne.symm ht)]
    omega

omit inst in
/-- Lowering a node without negative arcs to `epsilon` below what its arcs allow keeps the
refinement going. -/
theorem Refining.lower (hrows : p.rows = p.toNetwork.rows) (h : Refining p epsilon first s)
    (hepsilon : 1 ≤ epsilon) (hu : 0 < s.excess[u])
    (hall : ∀ r, p.source r = u → 0 < p.room s.flow r → 0 ≤ p.reduced p.scaledCost s.potential r)
    {best : Int} (hge : ∀ r, p.source r = u → 0 < p.room s.flow r → allowed p s r ≤ best)
    (hlower : best ≤ s.potential[u]) :
    Refining p epsilon first
      { s with potential := s.potential.set u (best - epsilon), current := s.current.set u 0 } := by
  have hlow : best - epsilon ≤ s.potential[u] := by omega
  refine ⟨⟨h.within, h.balanced⟩, fun r hroom => ?_, fun v r hmem hroom => ?_, fun v hv => ?_⟩
  · by_cases hr : p.source r = u
    · exact neg_le_reduced_set hr (hge r hr hroom) (by omega) (hall r hr hroom)
    · exact (h.optimal r hroom).trans (reduced_le_reduced_set hlow hr)
  · by_cases hv : v = u
    · subst hv
      simp at hmem
    · simp only [Table.getElem_set_of_ne _ _ (Ne.symm hv)] at hmem
      have hr : p.source r ≠ u := by
        rw [(Network.mem_row hrows).mp (List.mem_of_mem_take hmem)]
        exact hv
      exact (h.tried v r hmem hroom).trans (reduced_le_reduced_set hlow hr)
  · have hvu : v ≠ u := by
      rintro rfl
      exact absurd hv (not_lt.mpr hu.le)
    rw [← h.deficit v hv]
    exact Table.getElem_set_of_ne _ _ (Ne.symm hvu)

/-- No potential rises, and only nodes with an excess sink. -/
structure Sinks (s s' : State n m Int) : Prop where
  le : ∀ v : Fin n, s'.potential[v] ≤ s.potential[v]
  excess_pos : ∀ v : Fin n, s'.potential[v] ≠ s.potential[v] → 0 < s'.excess[v]

omit inst in
theorem sinks_of_eq (h : s'.potential = s.potential) : Sinks s s' :=
  ⟨fun v => by rw [h], fun v hv => absurd (by rw [h]) hv⟩

omit inst in
/-- Once no arc of a node is left to be tried, none with room has a negative reduced cost. -/
theorem Refining.all_tried (hrows : p.rows = p.toNetwork.rows) (h : Refining p epsilon first s)
    (hnone : p.rows[u][s.current[u]]? = none) (r : ResidualArc m) (hsource : p.source r = u)
    (hroom : 0 < p.room s.flow r) : 0 ≤ p.reduced p.scaledCost s.potential r :=
  h.tried u r (Network.mem_take_of_none hrows hnone hsource) hroom

/-- A node that has tried all its arcs is lowered by `epsilon` at least. -/
theorem Refining.lowered (hrows : p.rows = p.toNetwork.rows) (h : Refining p epsilon first s)
    (hepsilon : 1 ≤ epsilon) (hfeasible : ∃ flow, p.Feasible flow) (hu : 0 < s.excess[u])
    (hall : ∀ r, p.source r = u → 0 < p.room s.flow r →
      0 ≤ p.reduced p.scaledCost s.potential r) {best : Int} (hbest : highest p s u = some best) :
    let s' := { s with
      potential := s.potential.set u (best - epsilon), current := s.current.set u 0 }
    Refining p epsilon first s' ∧ Sinks s s' ∧
      progress p (floor p epsilon first) s' < progress p (floor p epsilon first) s := by
  obtain ⟨best', hbest', hge, r₀, hr₀, hroom₀, heq⟩ :=
    highest_spec hrows s (h.toSound.exists_open hfeasible hu)
  obtain rfl : best' = best := Option.some.inj (hbest'.symm.trans hbest)
  have hlower : best' ≤ s.potential[u] := by
    have := hall r₀ hr₀ hroom₀
    unfold Network.reduced at this
    unfold allowed at heq
    rw [hr₀] at this
    omega
  have hrefining := h.lower hrows hepsilon hu hall hge hlower
  refine ⟨hrefining, ⟨fun v => ?_, fun v hv => ?_⟩, ?_⟩
  · show (s.potential.set u (best' - epsilon))[v] ≤ _
    rw [Table.getElem_set]
    split
    · rename_i huv
      rw [← huv]
      omega
    · exact le_rfl
  · have huv : u = v := by
      by_contra huv
      exact hv (Table.getElem_set_of_ne _ _ huv)
    exact huv ▸ hu
  · refine progress_lt_of_potential (w := u) ?_ (hrefining.floor_le hepsilon hfeasible hu)
      fun v hv => Table.getElem_set_of_ne _ _ (Ne.symm hv)
    rw [Table.getElem_set_self]
    omega

/-- Taking up the next arc keeps the refinement going if the arc before is not admissible. -/
theorem Refining.advance (h : Refining p epsilon first s) {r : ResidualArc m}
    (hr : p.rows[u][s.current[u]]? = some r) (hnot : admissible p s r = false) (low : Int) :
    Refining p epsilon first { s with current := s.current.set u (s.current[u] + 1) } ∧
      progress p low { s with current := s.current.set u (s.current[u] + 1) } <
        progress p low s := by
  obtain ⟨hlt, -⟩ := Array.getElem?_eq_some_iff.mp hr
  refine ⟨⟨⟨h.within, h.balanced⟩, h.optimal, fun v r' hmem hroom => ?_, h.deficit⟩, ?_⟩
  · by_cases hv : v = u
    · subst hv
      rw [Table.getElem_set_self] at hmem
      rcases Network.mem_take_succ hr hmem with hmem | rfl
      · exact h.tried v r' hmem hroom
      · by_contra hneg
        rw [(admissible_iff s r').mpr ⟨hroom, not_le.mp hneg⟩] at hnot
        cases hnot
    · rw [Table.getElem_set_of_ne _ _ (Ne.symm hv)] at hmem
      exact h.tried v r' hmem hroom
  · refine progress_lt_of_current rfl rfl ?_ hlt fun v hv => ?_
    · simp
    · exact Table.getElem_set_of_ne _ _ (Ne.symm hv)

/-- A step of a discharge either makes progress or ends it without an excess. -/
theorem dischargeStep_spec (hrows : p.rows = p.toNetwork.rows) (h : Refining p epsilon first s)
    (hepsilon : 1 ≤ epsilon) (hfeasible : ∃ flow, p.Feasible flow) (hwaits : WaitsBut (· = u) s) :
    (∃ s', dischargeStep p epsilon u s = .next s' ∧ Refining p epsilon first s' ∧
        WaitsBut (· = u) s' ∧ Sinks s s' ∧
        progress p (floor p epsilon first) s' < progress p (floor p epsilon first) s) ∨
      (dischargeStep p epsilon u s = .done (some s) ∧ s.excess[u] ≤ 0) := by
  have hcases := dischargeStep_cases p epsilon u s
  generalize dischargeStep p epsilon u s = o at hcases
  cases hcases with
  | ended hdone => exact Or.inr ⟨rfl, hdone⟩
  | @pushed r hpos hr hadmissible =>
      obtain ⟨hrefining, hprogress⟩ :=
        h.push hepsilon hpos (Network.source_of_place hrows hr) hadmissible (floor p epsilon first)
      refine Or.inl ⟨_, rfl, hrefining, ?_, sinks_of_eq rfl, hprogress⟩
      exact hwaits.push r (le_min hpos.le (h.within.room_nonneg r))
  | moved _ hr hnot =>
      obtain ⟨hrefining, hprogress⟩ := h.advance hr hnot (floor p epsilon first)
      exact Or.inl ⟨_, rfl, hrefining, hwaits, sinks_of_eq rfl, hprogress⟩
  | lowered hpos hnone hbest =>
      obtain ⟨hrefining, hsinks, hprogress⟩ :=
        h.lowered hrows hepsilon hfeasible hpos (h.all_tried hrows hnone) hbest
      rw [scalar_sub_eq]
      exact Or.inl ⟨_, rfl, hrefining, hwaits, hsinks, hprogress⟩
  | stuck hpos hbest =>
      obtain ⟨best, hsome, -⟩ := highest_spec hrows s (h.toSound.exists_open hfeasible hpos)
      cases hbest.symm.trans hsome

end Step

section Queue

variable [inst : ExactCosts]

theorem discharge_mono {fuel' : Nat} (hfuel : fuel ≤ fuel') (s : State n m Int) (u : Fin n) :
    Persists (discharge p fuel epsilon s u) (discharge p fuel' epsilon s u) :=
  .iterate (fun _ => .rfl) hfuel

/-- A discharge ends. -/
theorem exists_discharge (hrows : p.rows = p.toNetwork.rows) (h : Refining p epsilon first s)
    (hepsilon : 1 ≤ epsilon) (hfeasible : ∃ flow, p.Feasible flow) (hwaits : WaitsBut (· = u) s) :
    ∃ fuel o, discharge p fuel epsilon s u = .ok o := by
  refine exists_iterate (P := fun s => Refining p epsilon first s ∧ WaitsBut (· = u) s)
    (InvImage.wf (progress p (floor p epsilon first)) wellFounded_lt)
    (fun _ _ => ⟨_, checked_exact _ _⟩) ?_
    ⟨h, hwaits⟩
  rintro s₁ s₂ ⟨h₁, hwaits₁⟩ hstep
  replace hstep := (Scalar.checked_eq_ok.mp hstep).2
  rcases dischargeStep_spec hrows h₁ hepsilon hfeasible hwaits₁ with
    ⟨s', heq, h', hwaits', -, hless⟩ | ⟨heq, -⟩
  · rw [heq] at hstep
    cases hstep
    exact ⟨⟨h', hwaits'⟩, hless⟩
  · rw [heq] at hstep
    cases hstep

/-- What a discharge leaves: a node is never stuck. -/
theorem discharge_spec (hrows : p.rows = p.toNetwork.rows) (h : Refining p epsilon first s)
    (hepsilon : 1 ≤ epsilon) (hfeasible : ∃ flow, p.Feasible flow) (hwaits : WaitsBut (· = u) s)
    {o : Result n m Int} (hdischarge : discharge p fuel epsilon s u = .ok o) :
    ∃ s', o = some s' ∧ Refining p epsilon first s' ∧ WaitsBut (fun _ => False) s' ∧
      (s' = s ∨
        progress p (floor p epsilon first) s' < progress p (floor p epsilon first) s) := by
  refine iterate_invariant
    (P := fun s₁ => Refining p epsilon first s₁ ∧ WaitsBut (· = u) s₁ ∧ (s₁ = s ∨
      progress p (floor p epsilon first) s₁ < progress p (floor p epsilon first) s))
    (Q := fun o => ∃ s', o = some s' ∧ Refining p epsilon first s' ∧
      WaitsBut (fun _ => False) s' ∧ (s' = s ∨
        progress p (floor p epsilon first) s' < progress p (floor p epsilon first) s))
    ?_ ?_ ⟨h, hwaits, Or.inl rfl⟩ hdischarge
  · rintro s₁ s₂ ⟨h₁, hwaits₁, hless⟩ hstep
    replace hstep := (Scalar.checked_eq_ok.mp hstep).2
    rcases dischargeStep_spec hrows h₁ hepsilon hfeasible hwaits₁ with
      ⟨s', heq, h', hwaits', -, hless'⟩ | ⟨heq, -⟩
    · rw [heq] at hstep
      cases hstep
      refine ⟨h', hwaits', Or.inr ?_⟩
      rcases hless with rfl | hless
      · exact hless'
      · exact hless'.trans hless
    · rw [heq] at hstep
      cases hstep
  · rintro s₁ o ⟨h₁, hwaits₁, hless⟩ hstep
    replace hstep := (Scalar.checked_eq_ok.mp hstep).2
    rcases dischargeStep_spec hrows h₁ hepsilon hfeasible hwaits₁ with
      ⟨s', heq, -⟩ | ⟨heq, hexcess⟩
    · rw [heq] at hstep
      cases hstep
    · rw [heq] at hstep
      cases hstep
      exact ⟨s₁, rfl, h₁, hwaits₁.discharged hexcess, hless⟩

/-- A state between two discharges: every node with an excess waits. -/
def Queued (p : Scaled n m Int) (epsilon : Int) (first : Table Int n) (s : State n m Int) : Prop :=
  Refining p epsilon first s ∧ WaitsBut (fun _ => False) s

/-- What is left to be done, the nodes that wait last. -/
def queueProgress (p : Scaled n m Int) (floor : Int) (s : State n m Int) :
    (Nat ×ₗ Nat ×ₗ Nat) ×ₗ Nat :=
  toLex (progress p floor s, s.active.length)

omit inst in
/-- The state in which the head of the queue is about to be discharged. -/
theorem Queued.pop (h : Queued p epsilon first s) {rest : List (Fin n)}
    (hactive : s.active = u :: rest) :
    Refining p epsilon first { s with active := rest } ∧
      WaitsBut (· = u) { s with active := rest } := by
  refine ⟨⟨⟨h.1.within, h.1.balanced⟩, h.1.optimal, h.1.tried, h.1.deficit⟩, fun v hv hpos => ?_⟩
  have hmem := h.2 v id hpos
  rw [hactive, List.mem_cons] at hmem
  exact hmem.resolve_left hv

theorem queueStep_mono {fuel' : Nat} (hfuel : fuel ≤ fuel') (s : State n m Int) :
    Persists (queueStep p fuel epsilon s) (queueStep p fuel' epsilon s) := by
  unfold queueStep
  cases s.active with
  | nil => exact .rfl
  | cons u rest => exact (discharge_mono hfuel _ u).bind fun _ => .rfl

theorem exists_queueStep (hrows : p.rows = p.toNetwork.rows) (hepsilon : 1 ≤ epsilon)
    (hfeasible : ∃ flow, p.Feasible flow) (h : Queued p epsilon first s) :
    ∃ fuel o, queueStep p fuel epsilon s = .ok o := by
  unfold queueStep
  cases hactive : s.active with
  | nil => exact ⟨0, _, rfl⟩
  | cons u rest =>
      obtain ⟨hrefining, hwaits⟩ := h.pop hactive
      obtain ⟨fuel, o, ho⟩ := exists_discharge hrows hrefining hepsilon hfeasible hwaits
      cases o with
      | some s' => exact ⟨fuel, .next s', bind_eq_ok.mpr ⟨_, ho, rfl⟩⟩
      | none => exact ⟨fuel, .done none, bind_eq_ok.mpr ⟨_, ho, rfl⟩⟩

/-- The loop over the queue makes progress until no node waits. -/
theorem queueStep_spec (hrows : p.rows = p.toNetwork.rows) (hepsilon : 1 ≤ epsilon)
    (hfeasible : ∃ flow, p.Feasible flow) (h : Queued p epsilon first s)
    {o : Step (State n m Int) (Result n m Int)} (hstep : queueStep p fuel epsilon s = .ok o) :
    (∃ s', o = .next s' ∧ Queued p epsilon first s' ∧
        queueProgress p (floor p epsilon first) s' < queueProgress p (floor p epsilon first) s) ∨
      (o = .done (some s) ∧ s.active = []) := by
  rcases queueStep_cases hstep with
    ⟨hactive, rfl⟩ | ⟨u, rest, result, hactive, hdischarge, hends⟩
  · exact Or.inr ⟨rfl, hactive⟩
  · obtain ⟨hrefining, hwaits⟩ := h.pop hactive
    obtain ⟨s₁, rfl, h₁, hwaits₁, hless⟩ :=
      discharge_spec hrows hrefining hepsilon hfeasible hwaits hdischarge
    rcases hends with ⟨⟨⟩, -⟩ | ⟨_, ⟨⟩, rfl⟩
    refine Or.inl ⟨s₁, rfl, ⟨h₁, hwaits₁⟩, ?_⟩
    rcases hless with heq | hless
    · rw [heq]
      refine Prod.Lex.toLex_lt_toLex.mpr (Or.inr ⟨rfl, ?_⟩)
      simp [hactive]
    · exact Prod.Lex.toLex_lt_toLex.mpr (Or.inl hless)

end Queue

section Refine

variable [inst : ExactCosts]

/-- The state after filling, from which the discharges start. -/
theorem queued_filled (hepsilon : 1 ≤ epsilon) (h : Sound p s)
    (hwaits : WaitsBut (fun _ => False) s) :
    Queued p epsilon s.potential
      { (ResidualArc.all m).foldl (saturate p) s with current := .const n 0 } := by
  obtain ⟨hsound, hwaits', hpotential, hall⟩ := fill_spec h hwaits
  refine ⟨⟨⟨hsound.within, hsound.balanced⟩, fun r hroom => ?_, fun v r hmem => ?_,
    fun v _ => ?_⟩, hwaits'⟩
  · have := hall r hroom
    show -epsilon ≤ p.reduced p.scaledCost
      ((ResidualArc.all m).foldl (saturate p) s).potential r
    rw [hpotential]
    omega
  · simp at hmem
  · show ((ResidualArc.all m).foldl (saturate p) s).potential[v] = _
    rw [hpotential]

theorem refine_mono {fuel' : Nat} (hfuel : fuel ≤ fuel') (s : State n m Int) :
    Persists (refine p fuel epsilon s) (refine p fuel' epsilon s) :=
  Persists.rfl.bind fun _ => .iterate (queueStep_mono hfuel) hfuel

/-- A refinement ends if some flow is feasible. -/
theorem exists_refine (hrows : p.rows = p.toNetwork.rows) (hepsilon : 1 ≤ epsilon)
    (hfeasible : ∃ flow, p.Feasible flow) (h : Sound p s)
    (hwaits : WaitsBut (fun _ => False) s) : ∃ fuel o, refine p fuel epsilon s = .ok o := by
  simp only [refine_eq_ok, fits_exact, implies_true, true_and]
  refine exists_iterate_fueled (P := Queued p epsilon s.potential)
    (InvImage.wf (queueProgress p (floor p epsilon s.potential)) wellFounded_lt) ?_ ?_ ?_
    (queued_filled hepsilon h hwaits)
  · exact fun f f' s hf => queueStep_mono hf s
  · intro s hs
    exact exists_queueStep hrows hepsilon hfeasible hs
  · intro f s₁ s₂ hs hstep
    rcases queueStep_spec hrows hepsilon hfeasible hs hstep with ⟨s', heq, h', hless⟩ | ⟨heq, -⟩
    · cases heq
      exact ⟨h', hless⟩
    · cases heq

/-- A refinement leaves a feasible flow that is optimal up to `epsilon`. -/
theorem refine_spec (hrows : p.rows = p.toNetwork.rows) (hepsilon : 1 ≤ epsilon)
    (hfeasible : ∃ flow, p.Feasible flow) (h : Sound p s)
    (hwaits : WaitsBut (fun _ => False) s) {o : Result n m Int}
    (hrefine : refine p fuel epsilon s = .ok o) :
    ∃ s', o = some s' ∧ Sound p s' ∧ (∀ v : Fin n, s'.excess[v] = 0) ∧
      ∀ r, 0 < p.room s'.flow r → -epsilon ≤ p.reduced p.scaledCost s'.potential r := by
  have hsupply : ∑ v : Fin n, p.supply[v] = 0 := by
    obtain ⟨flow, hflow⟩ := hfeasible
    rw [← p.sum_outflow flow]
    exact sum_congr rfl fun v _ => (hflow.balanced v).symm
  have hoptimal : ∃ s', o = some s' ∧
      ∀ r, 0 < p.room s'.flow r → -epsilon ≤ p.reduced p.scaledCost s'.potential r := by
    refine iterate_invariant (P := Queued p epsilon s.potential)
      (Q := fun o => ∃ s', o = some s' ∧
        ∀ r, 0 < p.room s'.flow r → -epsilon ≤ p.reduced p.scaledCost s'.potential r) ?_ ?_
      (queued_filled hepsilon h hwaits) (refine_eq_ok.mp hrefine).2
    · intro s₁ s₂ hs hstep
      rcases queueStep_spec hrows hepsilon hfeasible hs hstep with ⟨s', heq, h', -⟩ | ⟨heq, -⟩
      · cases heq
        exact h'
      · cases heq
    · intro s₁ o hs hstep
      rcases queueStep_spec hrows hepsilon hfeasible hs hstep with ⟨s', heq, -⟩ | ⟨heq, -⟩
      · cases heq
      · cases heq
        exact ⟨s₁, rfl, hs.1.optimal⟩
  obtain ⟨s', rfl, hoptimal⟩ := hoptimal
  obtain ⟨hsound, hzero⟩ := sound_refine hsupply h hwaits hrefine
  exact ⟨s', rfl, hsound, hzero, hoptimal⟩

end Refine

end NetworkFlow.CostScaling
