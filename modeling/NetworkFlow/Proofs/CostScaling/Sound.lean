import NetworkFlow.CostScaling.Refine
import NetworkFlow.Proofs.Discharge
import NetworkFlow.Proofs.Exact
import NetworkFlow.Proofs.Iteration
import NetworkFlow.Proofs.Refusals

/-!
# States of a refinement

A state is sound if its flow stays within the capacities, the excesses are what the
flow leaves of the supplies, and nodes with an excess wait for their turn. Pushes keep
it sound, and filling all admissible residual arcs leaves none with a negative reduced
cost.

## Main results

* `Sound.push`: a push keeps a state sound.
* `fill_spec`: what filling leaves.
* `highest_spec`: the potential to which a node is lowered.
* `dischargeStep_cases`, `queueStep_cases`: what a step of a refinement can be.
-/

namespace NetworkFlow.CostScaling

open Finset
open scoped ExactCosts

variable {n m : Nat} {amount : Int}

section Flow

variable {α : Type} {p : Scaled n m α} {s : State n m α}

/-- The flow stays within the capacities, and the excesses are what it leaves of the supplies. -/
structure Sound (p : Scaled n m α) (s : State n m α) : Prop where
  within : p.Within s.flow
  balanced : ∀ v : Fin n, s.excess[v] + p.outflow s.flow v = p.supply[v]

/-- Every node with an excess waits, one perhaps apart. -/
def WaitsBut (busy : Fin n → Prop) (s : State n m α) : Prop :=
  ∀ v : Fin n, ¬ busy v → 0 < s.excess[v] → v ∈ s.active

/-- The excesses cancel out, as the supplies do. -/
theorem Sound.sum_excess (h : Sound p s) (hp : ∑ v : Fin n, p.supply[v] = 0) :
    ∑ v : Fin n, s.excess[v] = 0 := by
  have hsum : ∑ v : Fin n, (s.excess[v] + p.outflow s.flow v) = ∑ v : Fin n, p.supply[v] :=
    sum_congr rfl fun v _ => h.balanced v
  rw [sum_add_distrib, p.sum_outflow, hp] at hsum
  omega

/-- Once no node waits, none has an excess or a deficit. -/
theorem Sound.excess_eq_zero (h : Sound p s) (hp : ∑ v : Fin n, p.supply[v] = 0)
    (hwaits : WaitsBut (fun _ => False) s) (hactive : s.active = []) (v : Fin n) :
    s.excess[v] = 0 := by
  have hnonpos : ∀ v : Fin n, s.excess[v] ≤ 0 := by
    intro v
    by_contra hpos
    have := hwaits v id (not_le.mp hpos)
    rw [hactive] at this
    cases this
  exact (sum_eq_zero_iff_of_nonpos fun v _ => hnonpos v).mp (h.sum_excess hp) v (mem_univ v)

theorem getElem_excess_push (s : State n m α) (r : ResidualArc m) (amount : Int) (v : Fin n) :
    (push p s r amount).excess[v] = s.excess[v] -
      ((if p.source r = v then amount else 0) - if p.target r = v then amount else 0) := by
  unfold push
  simp only [Table.getElem_set]
  by_cases hs : p.source r = v <;> by_cases ht : p.target r = v
  · simp only [hs, ht, if_true]
    ring
  · simp only [hs, ht, if_true, if_false]
    ring
  · simp only [hs, ht, if_true, if_false]
    ring
  · simp only [hs, ht, if_false]
    ring

/-- A node that gets an excess by a push waits. -/
theorem WaitsBut.push {busy : Fin n → Prop} (h : WaitsBut busy s) (r : ResidualArc m)
    (hpos : 0 ≤ amount) : WaitsBut busy (push p s r amount) := by
  intro v hv hexcess
  have hmem : v ∈ s.active → v ∈ (CostScaling.push p s r amount).active := by
    intro hold
    unfold CostScaling.push
    simp only
    split
    · exact List.mem_append_left _ hold
    · exact hold
  rw [getElem_excess_push] at hexcess
  by_cases hold : 0 < s.excess[v]
  · exact hmem (h v hv hold)
  · -- the node had no excess, so it is the target and joins the queue
    obtain ⟨htarget, hsource⟩ : p.target r = v ∧ p.source r ≠ v := by
      by_cases ht : p.target r = v <;> by_cases hs : p.source r = v <;>
        simp only [ht, hs, if_true, if_false, not_true, not_false_eq_true, and_true, ne_eq,
          and_false] at hexcess ⊢ <;> omega
    subst htarget
    unfold CostScaling.push
    simp only [Table.getElem_set_of_ne _ _ hsource]
    rw [if_pos]
    · simp
    · simp only [hsource, if_true, if_false] at hexcess
      omega

/-- A node without an excess need not wait. -/
theorem WaitsBut.discharged {u : Fin n} (h : WaitsBut (· = u) s) (hle : s.excess[u] ≤ 0) :
    WaitsBut (fun _ => False) s := by
  intro v _ hv
  refine h v ?_ hv
  rintro rfl
  exact absurd hv (not_lt.mpr hle)

/-- A push of no more than an arc has room for keeps a state sound. -/
theorem Sound.push (h : Sound p s) {r : ResidualArc m} (hpos : 0 ≤ amount)
    (hroom : amount ≤ p.room s.flow r) : Sound p (push p s r amount) where
  within := h.within.sendAlong hpos hroom
  balanced v := by
    show (CostScaling.push p s r amount).excess[v] +
      p.outflow (sendAlong s.flow r amount) v = _
    rw [getElem_excess_push, p.outflow_sendAlong, ← h.balanced v]
    ring

section Search

variable [Scalar α] {fuel : Nat} {epsilon : α} {u : Fin n}

/-- Filling a residual arc keeps a state sound and its excesses waiting. -/
theorem Sound.saturate (h : Sound p s) (hwaits : WaitsBut (fun _ => False) s) (r : ResidualArc m) :
    Sound p (saturate p s r) ∧ WaitsBut (fun _ => False) (saturate p s r) := by
  have hroom := h.within.room_nonneg r
  unfold CostScaling.saturate
  split
  · exact ⟨h.push hroom le_rfl, hwaits.push r hroom⟩
  · exact ⟨h, hwaits⟩

/-- What a step of a discharge does: it ends without an excess, pushes along the residual arc that is
tried, goes on to the next one, or lowers a node that has tried all of them. It gets stuck at a node
without residual arcs. -/
inductive DischargeCase (p : Scaled n m α) (epsilon : α) (u : Fin n) (s : State n m α) :
    Step (State n m α) (Result n m α) → Prop where
  | ended (hdone : s.excess[u] ≤ 0) : DischargeCase p epsilon u s (.done (some s))
  | pushed {r : ResidualArc m} (hpos : 0 < s.excess[u]) (hr : p.rows[u][s.current[u]]? = some r)
      (hadmissible : admissible p s r = true) :
      DischargeCase p epsilon u s (.next (push p s r (min s.excess[u] (p.room s.flow r))))
  | moved {r : ResidualArc m} (hpos : 0 < s.excess[u]) (hr : p.rows[u][s.current[u]]? = some r)
      (hnot : admissible p s r = false) :
      DischargeCase p epsilon u s (.next { s with current := s.current.set u (s.current[u] + 1) })
  | lowered {best : α} (hpos : 0 < s.excess[u]) (hnone : p.rows[u][s.current[u]]? = none)
      (hbest : highest p s u = some best) :
      DischargeCase p epsilon u s (.next { s with
        potential := s.potential.set u (best - epsilon)
        current := s.current.set u 0 })
  | stuck (hpos : 0 < s.excess[u]) (hbest : highest p s u = none) :
      DischargeCase p epsilon u s (.done none)

theorem dischargeStep_cases (p : Scaled n m α) (epsilon : α) (u : Fin n) (s : State n m α) :
    DischargeCase p epsilon u s (dischargeStep p epsilon u s) := by
  unfold dischargeStep
  split
  · exact .ended ‹_›
  · rename_i hpos
    rw [not_le] at hpos
    split
    · rename_i r hr
      split
      · exact .pushed hpos hr ‹_›
      · exact .moved hpos hr (Bool.eq_false_iff.mpr ‹_›)
    · rename_i hnone
      unfold relabel
      cases hbest : highest p s u with
      | none => exact .stuck hpos hbest
      | some best => exact .lowered hpos hnone hbest

/-- A step of a discharge keeps a state sound. -/
theorem sound_dischargeStep {s' : State n m α} (h : Sound p s) (hwaits : WaitsBut (· = u) s)
    (hstep : dischargeStep p epsilon u s = .next s') : Sound p s' ∧ WaitsBut (· = u) s' := by
  have hcases := dischargeStep_cases p epsilon u s
  rw [hstep] at hcases
  cases hcases with
  | @pushed r hpos =>
      have hamount : 0 ≤ min s.excess[u] (p.room s.flow r) :=
        le_min hpos.le (h.within.room_nonneg r)
      exact ⟨h.push hamount (min_le_right _ _), hwaits.push r hamount⟩
  | moved => exact ⟨⟨h.within, h.balanced⟩, hwaits⟩
  | lowered => exact ⟨⟨h.within, h.balanced⟩, hwaits⟩

/-- A discharge ends when its node has no excess. -/
theorem dischargeStep_done {s' : State n m α} (hstep : dischargeStep p epsilon u s = .done (some s')) :
    s' = s ∧ s.excess[u] ≤ 0 := by
  have hcases := dischargeStep_cases p epsilon u s
  rw [hstep] at hcases
  cases hcases with
  | ended hdone => exact ⟨rfl, hdone⟩

theorem sound_discharge (h : Sound p s) (hwaits : WaitsBut (· = u) s) {s' : State n m α}
    (hdischarge : discharge p fuel epsilon s u = .ok (some s')) :
    Sound p s' ∧ WaitsBut (fun _ => False) s' := by
  refine iterate_invariant (P := fun s => Sound p s ∧ WaitsBut (· = u) s)
    (Q := fun o => ∀ s', o = some s' → Sound p s' ∧ WaitsBut (fun _ => False) s') ?_ ?_
    ⟨h, hwaits⟩ hdischarge s' rfl
  · rintro s₁ s₂ ⟨h₁, hwaits₁⟩ hstep
    exact sound_dischargeStep h₁ hwaits₁ (Scalar.checked_eq_ok.mp hstep).2
  · rintro s₁ o ⟨h₁, hwaits₁⟩ hstep s₂ rfl
    obtain ⟨rfl, hle⟩ := dischargeStep_done (Scalar.checked_eq_ok.mp hstep).2
    exact ⟨h₁, hwaits₁.discharged hle⟩

/-- Filling all admissible residual arcs keeps a state sound and its excesses waiting. -/
theorem sound_filled (h : Sound p s) (hwaits : WaitsBut (fun _ => False) s) :
    Sound p { (ResidualArc.all m).foldl (CostScaling.saturate p) s with current := .const n 0 } ∧
      WaitsBut (fun _ => False)
        { (ResidualArc.all m).foldl (CostScaling.saturate p) s with current := .const n 0 } := by
  obtain ⟨hsound, hwaiting⟩ :=
    (foldl_forall (CostScaling.saturate p) (P := fun s => Sound p s ∧ WaitsBut (fun _ => False) s)
      (Q := fun _ _ => True) (fun _ r hs => hs.1.saturate hs.2 r) (fun _ _ _ _ _ => trivial)
      (ResidualArc.all m) ⟨h, hwaits⟩).1
  exact ⟨⟨hsound.within, hsound.balanced⟩, hwaiting⟩

omit [Scalar α] in
/-- The state in which the head of the queue is about to be discharged. -/
theorem Sound.pop (h : Sound p s) (hwaits : WaitsBut (fun _ => False) s) {rest : List (Fin n)}
    (hactive : s.active = u :: rest) :
    Sound p { s with active := rest } ∧ WaitsBut (· = u) { s with active := rest } := by
  refine ⟨⟨h.within, h.balanced⟩, fun v hv hpos => ?_⟩
  have hmem := hwaits v id hpos
  rw [hactive, List.mem_cons] at hmem
  exact hmem.resolve_left hv

/-- What a step of the queue does: it ends the loop if no node waits, and otherwise discharges the
first node that does. -/
theorem queueStep_cases {o : Step (State n m α) (Result n m α)}
    (hstep : queueStep p fuel epsilon s = .ok o) :
    (s.active = [] ∧ o = .done (some s)) ∨ ∃ u rest result, s.active = u :: rest ∧
      discharge p fuel epsilon { s with active := rest } u = .ok result ∧
      (result = none ∧ o = .done none ∨ ∃ s', result = some s' ∧ o = .next s') := by
  unfold queueStep at hstep
  split at hstep
  · cases hstep
    exact Or.inl ⟨‹_›, rfl⟩
  · rename_i u rest hactive
    obtain ⟨result, hdischarge, hstep⟩ := bind_eq_ok.mp hstep
    refine Or.inr ⟨u, rest, result, hactive, hdischarge, ?_⟩
    cases result with
    | none => exact Or.inl ⟨rfl, (Except.ok.inj hstep).symm⟩
    | some s' => exact Or.inr ⟨s', rfl, (Except.ok.inj hstep).symm⟩

theorem sound_queueStep (h : Sound p s) (hwaits : WaitsBut (fun _ => False) s) {s' : State n m α}
    (hstep : queueStep p fuel epsilon s = .ok (.next s')) :
    Sound p s' ∧ WaitsBut (fun _ => False) s' := by
  rcases queueStep_cases hstep with
    ⟨-, ⟨⟩⟩ | ⟨u, rest, _, hactive, hdischarge, ⟨-, ⟨⟩⟩ | ⟨_, rfl, ⟨⟩⟩⟩
  obtain ⟨hsound, hrest⟩ := h.pop hwaits hactive
  exact sound_discharge hsound hrest hdischarge

/-- A refinement fills the admissible residual arcs, if what that takes fits, and then goes through
the queue. -/
theorem refine_eq_ok {o : Result n m α} : refine p fuel epsilon s = .ok o ↔
    (∀ op ∈ fillOperations p s, Scalar.fits op = true) ∧
      iterate fuel (queueStep p fuel epsilon)
        { (ResidualArc.all m).foldl (CostScaling.saturate p) s with current := .const n 0 } =
          .ok o :=
  Scalar.inRange_bind_eq_ok

/-- In any arithmetic, a refinement that does not get stuck leaves no excess if the supplies cancel
out: every node with one has been discharged. -/
theorem sound_refine (hp : ∑ v : Fin n, p.supply[v] = 0) (h : Sound p s)
    (hwaits : WaitsBut (fun _ => False) s) {s' : State n m α}
    (hrefine : refine p fuel epsilon s = .ok (some s')) :
    Sound p s' ∧ ∀ v : Fin n, s'.excess[v] = 0 := by
  refine iterate_invariant (P := fun s => Sound p s ∧ WaitsBut (fun _ => False) s)
    (Q := fun o => ∀ s', o = some s' → Sound p s' ∧ ∀ v : Fin n, s'.excess[v] = 0) ?_ ?_
    (sound_filled h hwaits) (refine_eq_ok.mp hrefine).2 s' rfl
  · rintro s₁ s₂ ⟨h₁, hwaits₁⟩ hstep
    exact sound_queueStep h₁ hwaits₁ hstep
  · rintro s₁ o ⟨h₁, hwaits₁⟩ hstep s' rfl
    rcases queueStep_cases hstep with
      ⟨hactive, ⟨⟩⟩ | ⟨_, _, _, -, -, ⟨-, ⟨⟩⟩ | ⟨_, -, ⟨⟩⟩⟩
    exact ⟨h₁, h₁.excess_eq_zero hp hwaits₁ hactive⟩

end Search

end Flow

variable {p : Scaled n m Int} {s : State n m Int} [inst : ExactCosts]

theorem admissible_iff (s : State n m Int) (r : ResidualArc m) : admissible p s r = true ↔
    0 < p.room s.flow r ∧ p.reduced p.scaledCost s.potential r < 0 := by
  simp [admissible, reducedCost_eq, scalar_lt_iff, scalar_zero_eq]

/-- Filling all admissible residual arcs keeps a state sound and leaves no residual arc with room
at a negative reduced cost. -/
theorem fill_spec (h : Sound p s) (hwaits : WaitsBut (fun _ => False) s) :
    Sound p ((ResidualArc.all m).foldl (saturate p) s) ∧
      WaitsBut (fun _ => False) ((ResidualArc.all m).foldl (saturate p) s) ∧
      ((ResidualArc.all m).foldl (saturate p) s).potential = s.potential ∧
      ∀ r, 0 < p.room ((ResidualArc.all m).foldl (saturate p) s).flow r →
        0 ≤ p.reduced p.scaledCost s.potential r := by
  have hsteps := foldl_forall (saturate p)
    (P := fun s₁ => Sound p s₁ ∧ WaitsBut (fun _ => False) s₁ ∧ s₁.potential = s.potential)
    (Q := fun s₁ r => 0 < p.room s₁.flow r → 0 ≤ p.reduced p.scaledCost s.potential r)
    ?_ ?_ (ResidualArc.all m) ⟨h, hwaits, rfl⟩
  · obtain ⟨⟨hsound, hwaits', hpotential⟩, -, hall⟩ := hsteps
    exact ⟨hsound, hwaits', hpotential, fun r => hall r (ResidualArc.mem_all r)⟩
  · rintro s₁ r ⟨hsound, hwaits₁, hpotential⟩
    have hroom := hsound.within.room_nonneg r
    unfold saturate
    split
    · exact ⟨hsound.push hroom le_rfl, hwaits₁.push r hroom, hpotential⟩
    · exact ⟨hsound, hwaits₁, hpotential⟩
  · rintro s₁ r r' ⟨hsound, -, hpotential⟩ hr hopen
    unfold saturate at hopen
    split at hopen
    · rename_i hadmissible
      obtain ⟨hroom, hneg⟩ := (admissible_iff s₁ r).mp hadmissible
      rw [hpotential] at hneg
      change 0 < p.room (sendAlong s₁.flow r (p.room s₁.flow r)) r' at hopen
      by_cases hsame : r' = r
      · rw [hsame, p.room_sendAlong_self] at hopen
        omega
      · rcases p.open_of_open_sendAlong hroom.le hopen with hopen | rfl
        · exact (hr.resolve_left hsame) hopen
        · rw [p.reduced_reverse]
          omega
    · rename_i hnot
      rcases hr with rfl | hr
      · rw [admissible_iff, hpotential] at hnot
        by_contra hneg
        exact hnot ⟨hopen, not_le.mp hneg⟩
      · exact hr hopen

section Highest

/-- What a residual arc allows the potential of its first node to be. -/
def allowed (p : Scaled n m Int) (s : State n m Int) (r : ResidualArc m) : Int :=
  s.potential[p.target r] - r.price p.scaledCost

/-- The higher one of the highest potential so far and what one more residual arc allows. -/
private def higher (p : Scaled n m Int) (s : State n m Int) (best : Option Int)
    (r : ResidualArc m) : Option Int :=
  match best with
  | none => some (allowed p s r)
  | some b => some (max b (allowed p s r))

private theorem highest_eq (s : State n m Int) (u : Fin n) : highest p s u =
    (p.rows[u].toList.filter (0 < p.room s.flow ·)).foldl (higher p s) none := by
  unfold highest
  congr 1
  funext best r
  cases best with
  | none => simp only [residualCost_eq, scalar_sub_eq, higher, allowed]
  | some b =>
      simp only [residualCost_eq, scalar_sub_eq, scalar_lt_iff, higher, allowed]
      split
      · rw [max_eq_right (by omega)]
      · rw [max_eq_left (by omega)]

/-- The first one of two potentials, if there are any, is no lower than the second one. -/
private def NoLower (x y : Option Int) : Prop := ∀ c, y = some c → ∃ b, x = some b ∧ c ≤ b

omit inst in
private theorem NoLower.refl (x : Option Int) : NoLower x x := fun c h => ⟨c, h, le_refl c⟩

omit inst in
private theorem NoLower.trans {x y z : Option Int} (h : NoLower x y) (h' : NoLower y z) :
    NoLower x z := by
  intro c hz
  obtain ⟨b, hy, hb⟩ := h' c hz
  obtain ⟨a, hx, ha⟩ := h b hy
  exact ⟨a, hx, hb.trans ha⟩

omit inst in
private theorem higher_spec (p : Scaled n m Int) (s : State n m Int) (best : Option Int)
    (r : ResidualArc m) :
    (higher p s best r = best ∨ higher p s best r = some (allowed p s r)) ∧
      NoLower (higher p s best r) best ∧ NoLower (higher p s best r) (some (allowed p s r)) := by
  cases best with
  | none => exact ⟨Or.inr rfl, by simp [NoLower], NoLower.refl _⟩
  | some b =>
      simp only [higher, NoLower, Option.some.injEq, forall_eq', exists_eq_left']
      exact ⟨max_choice b _, le_max_left _ _, le_max_right _ _⟩

/-- A node with an open residual arc is lowered to the highest potential that one of them
allows. -/
theorem highest_spec (hrows : p.rows = p.toNetwork.rows) (s : State n m Int) {u : Fin n}
    (hopen : ∃ r, p.source r = u ∧ 0 < p.room s.flow r) :
    ∃ best, highest p s u = some best ∧
      (∀ r, p.source r = u → 0 < p.room s.flow r → allowed p s r ≤ best) ∧
      ∃ r, p.source r = u ∧ 0 < p.room s.flow r ∧ allowed p s r = best := by
  have hmem : ∀ r, r ∈ p.rows[u].toList.filter (0 < p.room s.flow ·) ↔
      p.source r = u ∧ 0 < p.room s.flow r := by
    intro r
    simp [Network.mem_row hrows]
  obtain ⟨horigin, -, hall⟩ := foldl_best NoLower.refl (fun _ _ _ => NoLower.trans)
    (higher_spec p s) (p.rows[u].toList.filter (0 < p.room s.flow ·)) none
  rw [← highest_eq] at horigin hall
  obtain ⟨r, hr⟩ := hopen
  obtain ⟨best, hbest, -⟩ := hall r ((hmem r).mpr hr) _ rfl
  refine ⟨best, hbest, fun r' hr' hroom' => ?_, ?_⟩
  · obtain ⟨b, hb, hle⟩ := hall r' ((hmem r').mpr ⟨hr', hroom'⟩) _ rfl
    rw [hbest] at hb
    cases hb
    exact hle
  · obtain ⟨r', hr', heq⟩ := horigin.resolve_left (by simp [hbest])
    rw [hbest] at heq
    obtain ⟨hsource, hroom⟩ := (hmem r').mp hr'
    exact ⟨r', hsource, hroom, (Option.some.inj heq).symm⟩

end Highest

end NetworkFlow.CostScaling
