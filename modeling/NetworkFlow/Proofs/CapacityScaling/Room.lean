import NetworkFlow.Proofs.CapacityScaling.Amounts
import NetworkFlow.Proofs.CapacityScaling.Potentials
import NetworkFlow.Proofs.CapacityScaling.Words

/-!
# Room for the potentials of capacity scaling

A distance is a sum of reduced costs, which is bounded as the potentials are. A phase lowers
potentials by what two ways cost at most, and as the deltas are halved at least, there are no
more phases than an amount has bits. If what all of them can lower a potential by and what one
more way costs fit the width, then so does everything that a run computes from costs.

## Main results

* `deficitOperations_fit`, `shiftOperations_fit`: what a search and the use of a way take fits.
* `steady_phase`: what a phase does to the potentials.
* `solve_ne_overflow`: capacity scaling does not overflow.
-/

namespace NetworkFlow.CapacityScaling

open scoped ExactCosts

variable {n m : Nat} {w : Width}

/-- The potentials are not above zero and not below `-bound`. -/
def Low (bound : Int) (st : State n m (Word w)) : Prop :=
  ∀ v : Fin n, -bound ≤ st.potential[v].val ∧ st.potential[v].val ≤ 0

section Search

variable [inst : ExactCosts] {p : Indexed n m (Word w)} {st : State n m (Word w)} {s : Fin n}
  {delta top bound : Int} {q : Search n m (Word w)}
  (htop : ∀ a : Fin m, |p.cost[a].val| ≤ top) (hnonneg : 0 ≤ top) (hlow : Low bound st)
  (hfits : (n + 1) * top + bound < w.half)

include htop hnonneg hlow hfits

omit inst in
/-- What is computed for a reduced cost fits. -/
theorem reducedCostOperations_fit (r : ResidualArc m) :
    ∀ op ∈ p.reducedCostOperations p.cost st.potential r, op.Fits := by
  have htop' : top ≤ ((n : Int) + 1) * top := le_mul_of_one_le_left hnonneg (by omega)
  exact Problem.reducedCostOperations_fit htop hlow (by omega)

variable (hopt : WideOptimal p.exact st.exact delta)

include hopt

/-- A distance found over a wide residual arc fits. -/
theorem fits_candidate (hq : q.exact.Near p.exact st.exact s delta top) {d : Word w}
    {r : ResidualArc m} (hd : q.dist[p.source r] = some d) (hroom : delta ≤ p.room st.flow r) :
    CostOperation.Fits (.add d (length p st r)) := by
  have hlength := val_length (reducedCostOperations_fit htop hnonneg hlow hfits r)
  have hdist : q.exact.dist[p.source r] = some d.val := by
    rw [dist_exact, hd]
    rfl
  have hcost : ∀ a : Fin m, |p.exact.cost[a]| ≤ top := Problem.abs_exact_cost_le htop
  have hnear : |d.val + p.exact.reduced p.exact.cost st.exact.potential r +
      st.exact.potential[p.exact.target r] - st.exact.potential[s]| ≤
        (q.exact.order.length + 1) * top := near_along hcost r (hq.near _ _ hdist)
  have hnear := abs_le.mp hnear
  have hshort : ((q.exact.order.length : Int) + 1) * top ≤ (n + 1) * top := by
    have : (q.exact.order.length : Int) ≤ n := by exact_mod_cast hq.length_le
    exact mul_le_mul_of_nonneg_right (by omega) hnonneg
  have hstart := hlow s
  have htarget := hlow (p.target r)
  have hpos := hq.nonneg _ _ hdist
  have hgrow := hopt r hroom
  rw [potential_exact, potential_exact, show p.exact.target r = p.target r from rfl] at hnear
  rw [← length_eq hopt hroom] at hnear hgrow
  show w.Fits (d.val + (length p st r).val)
  rw [hlength]
  exact ⟨by omega, by omega⟩

/-- What looking along the arcs that leave the nearest node takes fits. -/
theorem lookOperations_fit (hq : q.exact.Near p.exact st.exact s delta top) {u : Fin n}
    {d : Word w} (hnearest : q.nearest = some (u, d)) {rs : List (ResidualArc m)}
    (hrs : ∀ r ∈ rs, p.source r = u) (q' : Search n m (Word w)) :
    ∀ op ∈ Scalar.foldOperations (look p st delta d) (lookOperations p st delta d) q' rs,
      op.Fits := by
  refine foldOperations_fit (P := fun rs _ => ∀ r ∈ rs, p.source r = u) ?_
    (fun _ _ _ hrs r hr => hrs r (List.mem_cons_of_mem _ hr)) hrs
  intro q' r _ hrs
  obtain rfl := hrs r List.mem_cons_self
  unfold lookOperations
  split
  · simp
  · rename_i hlooked
    have hroom : delta ≤ p.room st.flow r := not_lt.mp fun hlt => hlooked (Or.inl hlt)
    refine List.forall_mem_append.mpr
      ⟨reducedCostOperations_fit htop hnonneg hlow hfits r, List.forall_mem_singleton.mpr ?_⟩
    exact fits_candidate htop hnonneg hlow hfits hopt hq (unsettled_of_nearest hnearest).2 hroom

variable (hrows : p.rows = p.toNetwork.rows)

include hrows

/-- What a search that knows what is right computes fits. -/
theorem searchOperations_fit {count : Nat} (hq : q.exact.Near p.exact st.exact s delta top) :
    ∀ op ∈ searchOperations p st s delta count q, op.Fits := by
  induction count generalizing q with
  | zero => simp [searchOperations]
  | succ count ih =>
      unfold searchOperations
      cases hnearest : q.nearest with
      | none => simp
      | some x =>
          obtain ⟨u, d⟩ := x
          simp only
          split
          · simp
          · rename_i hmissed
            have hsated : u ≠ s → -delta < st.exact.excess[u] := fun hne =>
              not_le.mp fun hle => hmissed ⟨hne, hle⟩
            have hrow : ∀ r, r ∈ p.rows[u].toList ↔ p.source r = u := fun _ => Network.mem_row hrows
            have hlooks := lookOperations_fit htop hnonneg hlow hfits hopt hq hnearest
              (fun r hr => (hrow r).mp hr) (q.settle u d)
            refine List.forall_mem_append.mpr ⟨hlooks, ih ?_⟩
            have hnearest' : q.exact.nearest = some (u, d.val) := by
              rw [nearest_exact, hnearest]
              rfl
            have hfold : (p.rows[u].toList.foldl (look p st delta d) (q.settle u d)).exact =
                p.rows[u].toList.foldl (look p.exact st.exact delta d.val)
                  (q.exact.settle u d.val) :=
              foldl_of_fits (e := Search.exact) (fun _ _ _ => look_exact) hlooks
            have hcost : ∀ a : Fin m, |p.exact.cost[a]| ≤ top := Problem.abs_exact_cost_le htop
            have hnext := hq.step hcost hnonneg hopt hnearest' hsated hrow
            rw [← hfold, Array.foldl_toList] at hnext
            exact hnext

/-- What the search for a deficit takes fits. -/
theorem deficitOperations_fit : ∀ op ∈ deficitOperations p st s delta, op.Fits := by
  refine searchOperations_fit htop hnonneg hlow hfits hopt hrows ?_
  rw [Search.start_exact]
  exact Search.Near.start s

/-- What is known of the way that a search on words finds. -/
theorem near_exact_route {way : Route n m (Word w)} (hway : nearestDeficit p st s delta = some way) :
    Route.Near p.exact st.exact s delta top way.exact := by
  have hsearch := nearestDeficit_exact (deficitOperations_fit (s := s) htop hnonneg hlow hfits hopt
    hrows)
  rw [hway] at hsearch
  exact near_route (p := p.exact) (Problem.abs_exact_cost_le htop) hnonneg hrows hopt hsearch

end Search

section Augment

variable [inst : ExactCosts] {p : Indexed n m (Word w)} {st : State n m (Word w)} {s : Fin n}
  {delta top low : Int} {way : Route n m (Word w)}

omit inst in
/-- The potentials in a phase are low. -/
theorem Deep.toLow {fall : Int} (h : Deep delta low fall st.exact) : Low (low + fall) st := by
  intro v
  have hdeep := h.deep v
  have hnonpos := h.nonpos v
  rw [potential_exact] at hdeep hnonpos
  exact ⟨hdeep, hnonpos⟩

omit inst in
/-- What a settled node is lowered by fits, and so does its potential after that. -/
theorem lowered_fits (h : Deep delta low (2 * (n * top)) st.exact)
    (hway : Route.Near p.exact st.exact s delta top way.exact)
    (hfits : low + 2 * (n * top) ≤ w.half) {v : Fin n} {d : Word w} (hv : (v, d) ∈ way.settled) :
    w.Fits (d.val - way.dist.val) ∧ w.Fits (st.potential[v].val + (d.val - way.dist.val)) := by
  have hmem : (v, d.val) ∈ way.exact.settled := List.mem_map_of_mem (f := exactEntry) hv
  have hle : d.val ≤ way.dist.val := hway.le_dist v d.val hmem
  have hpos := hway.nonneg v d.val hmem
  have hdeep : _ ≤ _ + (d.val - way.dist.val) := le_shift h hway hmem
  have hnonpos := h.nonpos v
  obtain ⟨-, hdist⟩ := way.dist.fits
  rw [potential_exact] at hdeep hnonpos
  exact ⟨⟨by omega, by omega⟩, ⟨by omega, by omega⟩⟩

omit inst in
/-- What lowers the potentials of the settled nodes fits. -/
theorem shiftOperations_fit (h : Deep delta low (2 * (n * top)) st.exact)
    (hway : Route.Near p.exact st.exact s delta top way.exact)
    (hfits : low + 2 * (n * top) ≤ w.half) :
    ∀ op ∈ shiftOperations st.potential way.settled way.dist, op.Fits := by
  have hnodup : (way.settled.map (·.1)).Nodup := by
    have := hway.settled_nodup
    rwa [Route.exact, List.map_map] at this
  -- a node is settled once, so its potential is as it was when its turn comes
  refine foldOperations_fit (P := fun rest potential => (rest.map (·.1)).Nodup ∧
    ∀ v d, (v, d) ∈ rest → w.Fits (d.val - way.dist.val) ∧
      w.Fits (potential[v].val + (d.val - way.dist.val))) ?_ ?_
    ⟨hnodup, fun v d hv => lowered_fits h hway hfits hv⟩
  · rintro potential ⟨v, d⟩ rest ⟨-, hrest⟩
    obtain ⟨hdiff, hsum⟩ := hrest v d List.mem_cons_self
    have hdiff : CostOperation.Fits (.sub d way.dist) := hdiff
    have hsum : CostOperation.Fits (.add potential[v] (d - way.dist)) := by
      show w.Fits (potential[v].val + (d - way.dist).val)
      rwa [CostOperation.val_sub hdiff]
    simp [hdiff, hsum]
  · rintro potential ⟨u, d⟩ rest ⟨hnodup, hrest⟩
    rw [List.map_cons, List.nodup_cons] at hnodup
    refine ⟨hnodup.2, fun v e hv => ?_⟩
    have hne : u ≠ v := by
      rintro rfl
      exact hnodup.1 (List.mem_map_of_mem (f := (·.1)) hv)
    rw [Table.getElem_set_of_ne _ _ hne]
    exact hrest v e (List.mem_cons_of_mem _ hv)

end Augment

section Phase

variable {p : Indexed n m (Word w)} {st : State n m (Word w)} {g g' : Progress n m (Word w)}
  {s : Fin n} {way : Route n m (Word w)} {delta top low : Int} {fuel : Nat}

theorem potential_saturate (st : State n m (Word w)) (r : ResidualArc m) :
    (saturate p delta st r).potential = st.potential := by
  unfold saturate
  split
  · exact potential_push _ _ _
  · rfl

/-- Filling arcs leaves the potentials as they are. -/
theorem potential_saturateNegative (delta : Int) (st : State n m (Word w)) :
    (saturateNegative p delta st).potential = st.potential := by
  unfold saturateNegative
  exact List.foldlRecOn (motive := fun st' => st'.potential = st.potential) (ResidualArc.all m)
    (saturate p delta) rfl fun st' h r _ => (potential_saturate st' r).trans h

/-- A state of a phase that began with no potential below `-low`: no wide residual arc has a
negative reduced cost, and the potentials have not fallen by more than two ways cost. -/
structure Steady (p : Indexed n m (Word w)) (delta low top : Int) (st : State n m (Word w)) :
    Prop where
  optimal : WideOptimal p.exact st.exact delta
  deep : Deep delta low (2 * (n * top)) st.exact

variable [ExactCosts] (htop : ∀ a : Fin m, |p.cost[a].val| ≤ top) (hnonneg : 0 ≤ top)
  (hfits : (n + 1) * top + (low + 2 * (n * top)) < w.half)

include htop hnonneg hfits

omit [ExactCosts] in
/-- What filling arcs at the beginning of a phase takes fits. -/
theorem fillOperations_fit (htol : p.tolerance.val = 0) (hlow : Low low st) :
    ∀ op ∈ fillOperations p delta st, op.Fits := by
  have hpos : 0 ≤ (n : Int) * top := by positivity
  have hturned : CostOperation.Fits (.neg p.tolerance) := CostOperation.fits_neg_of_val htol
  refine foldOperations_fit (P := fun _ st' => st'.potential = st.potential) ?_
    (fun st' r _ h => (potential_saturate st' r).trans h) rfl
  intro st' r _ hpotential
  have hlow' : Low low st' := fun v => by
    rw [hpotential]
    exact hlow v
  unfold saturateOperations
  split
  · exact List.forall_mem_append.mpr
      ⟨reducedCostOperations_fit htop hnonneg hlow' (by omega) r,
        List.forall_mem_singleton.mpr hturned⟩
  · simp

theorem Steady.near_route (h : Steady p delta low top st) (hrows : p.rows = p.toNetwork.rows)
    (hway : nearestDeficit p st s delta = some way) :
    Route.Near p.exact st.exact s delta top way.exact :=
  near_exact_route htop hnonneg h.deep.toLow hfits h.optimal hrows hway

theorem Steady.shiftOperations_fit (h : Steady p delta low top st)
    (hrows : p.rows = p.toNetwork.rows) (hway : nearestDeficit p st s delta = some way) :
    ∀ op ∈ shiftOperations st.potential way.settled way.dist, op.Fits := by
  have hpos : 0 ≤ ((n : Int) + 1) * top := by positivity
  exact CapacityScaling.shiftOperations_fit h.deep (h.near_route htop hnonneg hfits hrows hway)
    (by omega)

/-- What using one way takes fits. -/
theorem Steady.drainOperations_fit (h : Steady p delta low top g.state)
    (hrows : p.rows = p.toNetwork.rows) (s : Fin n) :
    ∀ op ∈ drainOperations p delta s g, op.Fits := by
  unfold drainOperations
  split
  · simp
  · refine List.forall_mem_append.mpr
      ⟨deficitOperations_fit htop hnonneg h.deep.toLow hfits h.optimal hrows, ?_⟩
    cases hway : nearestDeficit p g.state s delta with
    | none => simp
    | some way => exact h.shiftOperations_fit htop hnonneg hfits hrows hway

theorem Steady.augment (h : Steady p delta low top st) (hrows : p.rows = p.toNetwork.rows)
    (hdelta : 1 ≤ delta) (hway : nearestDeficit p st s delta = some way) :
    Steady p delta low top (augment p st s way) := by
  have hnear := h.near_route htop hnonneg hfits hrows hway
  have haugment := augment_exact (p := p) (s := s)
    (h.shiftOperations_fit htop hnonneg hfits hrows hway)
  constructor <;> rw [haugment]
  · exact h.optimal.augment hnear.toValid
  · exact h.deep.augment hnear hdelta

/-- What filling arcs leaves at the beginning of a phase. -/
theorem steady_saturateNegative (hp : p.toProblem.exact.Prepared) (hdelta : 1 ≤ delta)
    (hsound : Sound p st) (hlow : Low low st) :
    Steady p delta low top (saturateNegative p delta st) := by
  have hpos : 0 ≤ (n : Int) * top := by positivity
  constructor
  · rw [saturateNegative_exact (fillOperations_fit htop hnonneg hfits hp.tolerance_eq hlow)]
    exact wideOptimal_saturateNegative hp hdelta ⟨hsound.within, hsound.balanced⟩
  · have hpotential : ∀ v : Fin n, (saturateNegative p delta st).exact.potential[v] =
        st.potential[v].val := by
      intro v
      rw [potential_exact, potential_saturateNegative]
    refine ⟨fun v => ?_, fun v => ?_, fun v _ => ?_⟩ <;> rw [hpotential] <;>
      have := hlow v <;> omega

/-- What a phase on words leaves. -/
theorem steady_phase (hp : p.toProblem.exact.Prepared) (hrows : p.rows = p.toNetwork.rows)
    (hdelta : 1 ≤ delta) (hsound : Sound p g.state) (hlow : Low low g.state)
    (hphase : phase p fuel delta g = .ok g') : Steady p delta low top g'.state :=
  phase_invariant hrows
    (fun hdelta _ _ _ hst _ hway => hst.augment htop hnonneg hfits hrows hdelta hway)
    (steady_saturateNegative htop hnonneg hfits hp hdelta hsound hlow) hphase

/-- A phase on words does not overflow. -/
theorem phase_ne_overflow_of_low (hp : p.toProblem.exact.Prepared)
    (hrows : p.rows = p.toNetwork.rows) (hdelta : 1 ≤ delta) (hsound : Sound p g.state)
    (hlow : Low low g.state) : phase p fuel delta g ≠ .error .overflow := by
  have hfill : ∀ op ∈ fillOperations p delta g.state, op.Fits :=
    fillOperations_fit htop hnonneg hfits hp.tolerance_eq hlow
  refine phase_ne_overflow (P := Steady p delta low top) hrows
    (fun _ _ _ hst _ hway => hst.augment htop hnonneg hfits hrows hdelta hway) ?_ ?_
    (steady_saturateNegative htop hnonneg hfits hp hdelta hsound hlow)
  · exact fun g s hg => by simpa using hg.drainOperations_fit htop hnonneg hfits hrows s
  · simpa using hfill

end Phase

section Schedule

variable {factor fuel left : Nat} {delta limit : Int}

/-- There are `left` phases at most from that for `delta` on: a factor of two at least halves delta,
and with another one there is only the phase for a delta of one. -/
structure Scheduled (factor : Nat) (delta : Int) (left : Nat) : Prop where
  pos : 1 ≤ delta
  lt_pow : delta < 2 ^ left
  shrinks : factor < 2 → delta = 1

theorem Scheduled.left_pos (h : Scheduled factor delta left) : 1 ≤ left := by
  by_contra hzero
  obtain rfl : left = 0 := by omega
  have hpos := h.pos
  have hlt := h.lt_pow
  omega

/-- A phase is one less left. -/
theorem Scheduled.next (hfactor : (factor : Int) ≤ Amount.largest)
    (h : Scheduled factor delta left) (hne : delta ≠ 1) :
    ∃ left', left = left' + 1 ∧ Scheduled factor (nextDelta factor delta) left' := by
  have htwo : 2 ≤ factor := not_lt.mp fun hlt => hne (h.shrinks hlt)
  have hpos := h.pos
  obtain ⟨left, rfl⟩ : ∃ k, left = k + 1 := ⟨left - 1, by have := h.left_pos; omega⟩
  have hlt := h.lt_pow
  rw [pow_succ] at hlt
  have hdiv : delta / (factor : Int) ≤ delta / 2 := by
    refine Int.le_ediv_of_mul_le (by omega) ?_
    have hfloor : delta / (factor : Int) * factor ≤ delta := Int.ediv_mul_le _ (by omega)
    have hquotient : 0 ≤ delta / (factor : Int) := Int.ediv_nonneg (by omega) (by omega)
    have hmono : delta / (factor : Int) * 2 ≤ delta / (factor : Int) * factor :=
      mul_le_mul_of_nonneg_left (by omega) hquotient
    omega
  have hnext : nextDelta factor delta = max (delta / (factor : Int)) 1 := by
    unfold nextDelta
    rw [signedFactor_eq hfactor, Int.tdiv_eq_ediv_of_nonneg (by omega)]
  exact ⟨left, rfl, one_le_nextDelta _ _, by rw [hnext]; omega, fun hlt => absurd htwo (by omega)⟩

/-- The first delta is an amount, so there are no more phases than it has bits. -/
theorem scheduled_startDelta (hfactor : (factor : Int) ≤ Amount.largest)
    (h : startDelta fuel factor limit = .ok delta) : Scheduled factor delta 64 := by
  obtain ⟨hpos, hsmall⟩ := startDelta_spec hfactor h
  have hle := startDelta_le h
  unfold Amount.largest at hle
  exact ⟨hpos, by omega, hsmall⟩

end Schedule

section Run

variable {p : Indexed n m (Word w)} {st : State n m (Word w)} {g g' : Progress n m (Word w)}
  {top delta : Int} {fuel factor : Nat}

/-- A state before a phase: of the 64 phases that there are at most, some are left, and the
potentials are no lower than the others can have made them. -/
structure Underway (p : Indexed n m (Word w)) (factor : Nat) (top : Int)
    (st : State n m (Word w)) (delta : Int) : Prop where
  sound : Sound p st
  low : ∃ used left : Nat, used + left ≤ 64 ∧ Scheduled factor delta left ∧
    Low (used * (2 * (n * top))) st

theorem potential_start (p : Indexed n m (Word w)) : (start p).potential = .const n 0 := by
  unfold start
  refine List.foldlRecOn (motive := fun st : State n m (Word w) => st.potential = .const n 0)
    (List.finRange m) (fillNegative p) rfl fun st h a _ => ?_
  unfold fillNegative
  split
  · rw [potential_push, h]
  · exact h

theorem underway_start (hp : p.toProblem.exact.Prepared) (hfactor : (factor : Int) ≤ Amount.largest)
    {limit : Int} (h : startDelta fuel factor limit = .ok delta) :
    Underway p factor top (start p) delta := by
  refine ⟨sound_start hp.amounts, 0, 64, le_rfl, scheduled_startDelta hfactor h, fun v => ?_⟩
  rw [potential_start, Table.getElem_const]
  simp [val_zero]

variable (hp : p.toProblem.exact.Prepared) (htop : ∀ a : Fin m, |p.cost[a].val| ≤ top)
  (hnonneg : 0 ≤ top) (hfits : (n + 1) * top + 64 * (2 * (n * top)) < w.half)
  (hrows : p.rows = p.toNetwork.rows) (hfactor : (factor : Int) ≤ Amount.largest)

include hp htop hnonneg hfits hrows

/-- A phase keeps the state of a run as it should be. -/
theorem Underway.phase (hfactor : (factor : Int) ≤ Amount.largest)
    (h : Underway p factor top g.state delta) (hne : delta ≠ 1)
    (hphase : phase p fuel delta g = .ok g') :
    Underway p factor top g'.state (nextDelta factor delta) := by
  let _ := ExactCosts.ofWidth w
  refine ⟨sound_phase hrows h.sound hphase, ?_⟩
  obtain ⟨used, left, hcount, hscheduled, hlow⟩ := h.low
  obtain ⟨left, rfl, hnext⟩ := hscheduled.next hfactor hne
  have hmono : (used : Int) * (2 * (n * top)) ≤ 63 * (2 * (n * top)) :=
    mul_le_mul_of_nonneg_right (by omega) (by positivity)
  have hsteady :=
    steady_phase htop hnonneg (by omega) hp hrows hscheduled.pos h.sound hlow hphase
  refine ⟨used + 1, left, by omega, hnext, ?_⟩
  push_cast
  rw [add_mul, one_mul]
  exact hsteady.deep.toLow

theorem Underway.phase_ne_overflow (h : Underway p factor top g.state delta) :
    CapacityScaling.phase p fuel delta g ≠ .error .overflow := by
  let _ := ExactCosts.ofWidth w
  obtain ⟨used, left, hcount, hscheduled, hlow⟩ := h.low
  have hleft := hscheduled.left_pos
  have hmono : (used : Int) * (2 * (n * top)) ≤ 63 * (2 * (n * top)) :=
    mul_le_mul_of_nonneg_right (by omega) (by positivity)
  exact phase_ne_overflow_of_low htop hnonneg (by omega) hp hrows hscheduled.pos h.sound hlow

include hfactor

/-- The phases do not overflow. -/
theorem run_ne_overflow_of_low : run p fuel factor ≠ .error .overflow :=
  run_ne_overflow (P := Underway p factor top) (fun _ hstart => underway_start hp hfactor hstart)
    (fun _ _ h => h.phase_ne_overflow hp htop hnonneg hfits hrows)
    fun _ _ _ h hne hphase => h.phase hp htop hnonneg hfits hrows hfactor hne hphase

end Run

/-- Capacity scaling on words does not overflow as long as what all phases can lower a potential by
fits the width. -/
theorem solve_ne_overflow {p : Problem n m (Word w)} {top : Int} {factor : Nat}
    (hp : p.exact.Prepared) (htop : ∀ a : Fin m, |p.cost[a].val| ≤ top) (hnonneg : 0 ≤ top)
    (hfits : (n + 1) * top + 64 * (2 * (n * top)) < w.half)
    (hfactor : (factor : Int) ≤ Amount.largest) (fuel : Nat) :
    (solve fuel p factor).NoOverflow := by
  unfold solve
  refine (Logged.noOverflow_ofRun (run_ne_overflow_of_low (p := { p with rows := p.toNetwork.rows })
    hp htop hnonneg hfits rfl hfactor)).bind fun last _ => ?_
  refine (Logged.noOverflow_of_ok rfl).bind fun _ _ => ?_
  split <;> exact Logged.noOverflow_of_ok rfl

end NetworkFlow.CapacityScaling
