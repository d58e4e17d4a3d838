import NetworkFlow.MaxFlow
import NetworkFlow.Proofs.Reach
import NetworkFlow.Proofs.Refusals
import NetworkFlow.Proofs.Walk

/-!
# Preflows

While a maximum flow is looked for, nodes may hold what they have not passed on.
Excesses say how much: what has entered a node and not left it, for every node
but the target, which gathers what arrives without counting it. No node but the
source has lost anything, so what a node holds has come from the source, and it
can go back there over residual arcs with room.

Sums are checked, so every operation may be refused. The lemmas are about the case
that it is not.

## Main results

* `Preflow.push`: pushing along a residual arc keeps a preflow.
* `Preflow.reaches_source`: a node with an excess reaches the source.
* `dischargeStep_cases`, `queueStep_cases`: what a step of the search can be.
-/

namespace NetworkFlow.MaxFlow

open Finset Relation

variable {n m : Nat} {t : Terminals n m} {s s' s'' : State n m} {u v : Fin n} {amount : Int}

/-- What all operations that only change excesses and flow have in common: the excess of every
node but the target changes by its gain, and a node that gets an excess joins the queue. -/
structure Counted (t : Terminals n m) (s s' : State n m) (gain : Fin n → Int) : Prop where
  label_eq : s'.label = s.label
  current_eq : s'.current = s.current
  excess_eq : ∀ v, v ≠ t.target → s'.excess[v] = s.excess[v] + gain v
  waits : ∀ v ∈ s.active, v ∈ s'.active
  inner : ∀ v ∈ s'.active, v ∈ s.active ∨ (v ≠ t.source ∧ v ≠ t.target)
  joins : ∀ v, v ≠ t.source → v ≠ t.target → 0 < s'.excess[v] →
    0 < s.excess[v] ∨ v ∈ s'.active

theorem Counted.trans {gain gain' : Fin n → Int} (h : Counted t s s' gain)
    (h' : Counted t s' s'' gain') : Counted t s s'' fun v => gain v + gain' v where
  label_eq := h'.label_eq.trans h.label_eq
  current_eq := h'.current_eq.trans h.current_eq
  excess_eq v hv := by
    rw [h'.excess_eq v hv, h.excess_eq v hv]
    ring
  waits v hv := h'.waits v (h.waits v hv)
  inner v hv := by
    rcases h'.inner v hv with hv | hv
    · exact h.inner v hv
    · exact Or.inr hv
  joins v hs ht hpos := by
    rcases h'.joins v hs ht hpos with hpos | hv
    · exact (h.joins v hs ht hpos).imp_right (h'.waits v)
    · exact Or.inr hv

/-- The excess of a node changes by the amount, and the node joins the queue if it got one. -/
theorem counted_set (hu : u ≠ t.target) :
    (u ≠ t.source ∧ s.excess[u] ≤ 0 ∧ 0 < s.excess[u] + amount →
      Counted t s { s with
          excess := s.excess.set u (s.excess[u] + amount)
          active := s.active ++ [u] } fun v => if u = v then amount else 0) ∧
      (¬ (u ≠ t.source ∧ s.excess[u] ≤ 0 ∧ 0 < s.excess[u] + amount) →
        Counted t s { s with excess := s.excess.set u (s.excess[u] + amount) }
          fun v => if u = v then amount else 0) := by
  have hexcess : ∀ v : Fin n, (s.excess.set u (s.excess[u] + amount))[v] =
      s.excess[v] + if u = v then amount else 0 := by
    intro v
    rw [Table.getElem_set]
    split
    · rename_i huv
      rw [huv]
    · rw [add_zero]
  constructor
  · intro hjoin
    refine ⟨rfl, rfl, fun v _ => hexcess v, fun v hv => by simp [hv], fun v hv => ?_, ?_⟩
    · rcases List.mem_append.mp hv with hv | hv
      · exact Or.inl hv
      · rw [List.mem_singleton.mp hv]
        exact Or.inr ⟨hjoin.1, hu⟩
    · intro v _ _ hpos
      by_cases huv : u = v
      · exact Or.inr (by simp [huv])
      · rw [hexcess, if_neg huv, add_zero] at hpos
        exact Or.inl hpos
  · intro hjoin
    refine ⟨rfl, rfl, fun v _ => hexcess v, fun _ hv => hv, fun _ hv => Or.inl hv, ?_⟩
    intro v hs _ hpos
    left
    by_cases huv : u = v
    · subst huv
      by_contra hle
      rw [hexcess, if_pos rfl] at hpos
      exact hjoin ⟨hs, not_lt.mp hle, hpos⟩
    · rw [hexcess, if_neg huv, add_zero] at hpos
      exact hpos

/-- An excess that is changed without refusal has changed by the amount. -/
theorem addExcess_spec (h : addExcess t s u amount = .ok s') :
    s'.flow = s.flow ∧ Counted t s s' fun v => if u = v then amount else 0 := by
  unfold addExcess at h
  split at h
  · rename_i hu
    cases h
    refine ⟨rfl, rfl, rfl, fun v hv => ?_, fun _ hv => hv, fun _ hv => Or.inl hv,
      fun _ _ _ hpos => Or.inl hpos⟩
    rw [if_neg (by rintro rfl; exact hv hu), add_zero]
  · rename_i hu
    obtain ⟨after, hafter, h⟩ := bind_eq_ok.mp h
    obtain ⟨-, rfl⟩ := Amount.checked_eq_ok.mp hafter
    split at h
    · rename_i hjoin
      cases h
      exact ⟨rfl, (counted_set hu).1 hjoin⟩
    · rename_i hjoin
      cases h
      exact ⟨rfl, (counted_set hu).2 hjoin⟩

/-- A refusal is always for a sum that is out of range. -/
theorem addExcess_error {cause : Error} (h : addExcess t s u amount = .error cause) :
    cause = .arithmeticOverflow := by
  unfold addExcess at h
  split at h
  · cases h
  · rcases bind_eq_error.mp h with h | ⟨after, -, h⟩
    · exact Amount.checked_eq_error h
    · split at h <;> cases h

/-- What sending an amount along a residual arc brings to a node. -/
def gainAlong (t : Terminals n m) (r : ResidualArc m) (amount : Int) (v : Fin n) : Int :=
  (if t.toNetwork.target r = v then amount else 0) -
    if t.toNetwork.source r = v then amount else 0

theorem outflow_sendAlong_gain (flow : Table Int m) (r : ResidualArc m) (amount : Int)
    (v : Fin n) : t.outflow (sendAlong flow r amount) v =
      t.outflow flow v - gainAlong t r amount v := by
  rw [t.outflow_sendAlong, gainAlong]
  ring

/-- An excess that leaves one end of a residual arc and arrives at the other one. -/
theorem counted_along {r : ResidualArc m}
    (h : addExcess t s (t.toNetwork.source r) (-amount) = .ok s')
    (h' : addExcess t s' (t.toNetwork.target r) amount = .ok s'') :
    s''.flow = s.flow ∧ Counted t s s'' (gainAlong t r amount) := by
  obtain ⟨hflow, hcount⟩ := addExcess_spec h
  obtain ⟨hflow', hcount'⟩ := addExcess_spec h'
  refine ⟨hflow'.trans hflow, ?_⟩
  have hgain : (fun v => (if t.toNetwork.source r = v then -amount else 0) +
      if t.toNetwork.target r = v then amount else 0) = gainAlong t r amount := by
    funext v
    unfold gainAlong
    split_ifs <;> ring
  rw [← hgain]
  exact hcount.trans hcount'

/-- A push that is not refused sends as much as the node has and the arc has room for. -/
theorem push_spec {r : ResidualArc m} (hu : t.toNetwork.source r = u)
    (h : push t s u r = .ok s') :
    s'.flow = sendAlong s.flow r (min s.excess[u] (t.room s.flow r)) ∧
      Counted t s s' (gainAlong t r (min s.excess[u] (t.room s.flow r))) := by
  subst hu
  unfold push at h
  obtain ⟨s₁, h₁, h⟩ := bind_eq_ok.mp h
  obtain ⟨s₂, h₂, h⟩ := bind_eq_ok.mp h
  cases h
  obtain ⟨hflow, hcount⟩ := counted_along h₁ h₂
  exact ⟨congrArg (sendAlong · r _) hflow, hcount.label_eq, hcount.current_eq, hcount.excess_eq,
    hcount.waits, hcount.inner, hcount.joins⟩

theorem push_error {r : ResidualArc m} {cause : Error} (h : push t s u r = .error cause) :
    cause = .arithmeticOverflow := by
  unfold push at h
  rcases bind_eq_error.mp h with h | ⟨s₁, -, h⟩
  · exact addExcess_error h
  · rcases bind_eq_error.mp h with h | ⟨s₂, -, h⟩
    · exact addExcess_error h
    · cases h

/-- The flow stays within the capacities, the excesses say what the nodes hold, and no node but
the source has lost anything. -/
structure Preflow (t : Terminals n m) (s : State n m) : Prop where
  within : t.Within s.flow
  excess_eq : ∀ v, v ≠ t.target → s.excess[v] = -t.outflow s.flow v
  outflow_nonpos : ∀ v, v ≠ t.source → t.outflow s.flow v ≤ 0
  inner : ∀ v ∈ s.active, v ≠ t.source ∧ v ≠ t.target

/-- Sending an amount that the first node has and the arc has room for keeps a preflow. -/
theorem Preflow.sent (h : Preflow t s) {r : ResidualArc m} (hpos : 0 ≤ amount)
    (hroom : amount ≤ t.room s.flow r)
    (hhas : t.toNetwork.source r ≠ t.source → amount ≤ -t.outflow s.flow (t.toNetwork.source r))
    (hflow : s'.flow = sendAlong s.flow r amount) (hcount : Counted t s s' (gainAlong t r amount)) :
    Preflow t s' where
  within := by
    rw [hflow]
    exact h.within.sendAlong hpos hroom
  excess_eq v hv := by
    rw [hcount.excess_eq v hv, h.excess_eq v hv, hflow, outflow_sendAlong_gain]
    ring
  outflow_nonpos v hv := by
    have hv' := h.outflow_nonpos v hv
    rw [hflow, outflow_sendAlong_gain, gainAlong]
    by_cases hsource : t.toNetwork.source r = v
    · subst hsource
      have := hhas hv
      split_ifs <;> omega
    · rw [if_neg hsource]
      split_ifs <;> omega
  inner v hv := (hcount.inner v hv).elim (h.inner v) id

/-- Pushing an excess keeps a preflow. -/
theorem Preflow.push (h : Preflow t s) {r : ResidualArc m} (hu : t.toNetwork.source r = u)
    (htarget : u ≠ t.target) (hpos : 0 ≤ s.excess[u]) (hpush : push t s u r = .ok s') :
    Preflow t s' := by
  obtain ⟨hflow, hcount⟩ := push_spec hu hpush
  have hroom := h.within.room_nonneg r
  refine h.sent (le_min hpos hroom) (min_le_right _ _) ?_ hflow hcount
  intro _
  rw [hu, ← h.excess_eq u htarget]
  exact min_le_left _ _

/-- A node with an excess reaches the source. -/
theorem Preflow.reaches_source (h : Preflow t s) (hu : 0 < s.excess[u]) (htarget : u ≠ t.target) :
    ReflTransGen (t.Open s.flow) u t.source := by
  rw [← Network.mem_reachable]
  by_contra hsource
  -- otherwise the nodes that it reaches hold more than the empty flow would leave there
  have hzero : t.Within (.const m 0) := by
    intro a
    have := h.within a
    simp only [Table.getElem_const]
    omega
  have hclosed : t.Closed s.flow (t.reachable s.flow u) := Network.closed_reachable u
  have hcut := t.sum_outflow_le_of_closed hclosed hzero
  have hempty : ∑ v ∈ t.reachable s.flow u, t.outflow (.const m 0) v = 0 := by
    simp [Network.outflow]
  have hneg : ∑ v ∈ t.reachable s.flow u, t.outflow s.flow v < 0 := by
    refine sum_neg' (fun v hv => h.outflow_nonpos v ?_) ⟨u, Network.self_mem_reachable u, ?_⟩
    · rintro rfl
      exact hsource hv
    · rw [h.excess_eq u htarget] at hu
      omega
  omega

section Step

/-- What a step of a discharge does: it ends without an excess, lifts a node that has tried all its
residual arcs, pushes along the one that is tried, or goes on to the next one. -/
inductive DischargeCase (t : Terminals n m) (u : Fin n) (s : State n m) :
    Step (State n m) (Except Error (State n m)) → Prop where
  | ended (hdone : s.excess[u] ≤ 0) : DischargeCase t u s (.done (.ok s))
  | lifted (hpos : 0 < s.excess[u]) (hnone : t.rows[u][s.current[u]]? = none) :
      DischargeCase t u s (.next (relabel t s u))
  | pushed {r : ResidualArc m} {s' : State n m} (hpos : 0 < s.excess[u])
      (hr : t.rows[u][s.current[u]]? = some r) (hcan : canPush t s u r = true)
      (hpush : push t s u r = .ok s') : DischargeCase t u s (.next s')
  | refused {r : ResidualArc m} {cause : Error} (hpos : 0 < s.excess[u])
      (hr : t.rows[u][s.current[u]]? = some r) (hpush : push t s u r = .error cause) :
      DischargeCase t u s (.done (.error cause))
  | moved {r : ResidualArc m} (hpos : 0 < s.excess[u]) (hr : t.rows[u][s.current[u]]? = some r)
      (hcan : canPush t s u r = false) :
      DischargeCase t u s (.next { s with current := s.current.set u (s.current[u] + 1) })

theorem dischargeStep_cases (t : Terminals n m) (u : Fin n) (s : State n m) :
    DischargeCase t u s (dischargeStep t u s) := by
  unfold dischargeStep
  split
  · exact .ended ‹_›
  · rename_i hpos
    rw [not_le] at hpos
    split
    · exact .lifted hpos ‹_›
    · rename_i r hr
      split
      · rename_i hcan
        cases hpush : push t s u r with
        | ok s' => exact .pushed hpos hr hcan hpush
        | error cause => exact .refused hpos hr hpush
      · exact .moved hpos hr (Bool.eq_false_iff.mpr ‹_›)

/-- What a step of the queue does: it ends if no node waits, and otherwise discharges the first node
that does. -/
theorem queueStep_cases {fuel : Nat} {o : Step (State n m) (Except Error (State n m))}
    (hstep : queueStep t fuel s = .ok o) :
    (s.active = [] ∧ o = .done (.ok s)) ∨ ∃ u rest result, s.active = u :: rest ∧
      discharge t fuel { s with active := rest } u = .ok result ∧
      ((∃ cause, result = .error cause ∧ o = .done (.error cause)) ∨
        ∃ s', result = .ok s' ∧ o = .next s') := by
  unfold queueStep at hstep
  split at hstep
  · cases hstep
    exact Or.inl ⟨‹_›, rfl⟩
  · rename_i u rest hactive
    obtain ⟨result, hdischarge, hstep⟩ := bind_eq_ok.mp hstep
    refine Or.inr ⟨u, rest, result, hactive, hdischarge, ?_⟩
    cases result with
    | ok s' => exact Or.inr ⟨s', rfl, (Except.ok.inj hstep).symm⟩
    | error cause => exact Or.inl ⟨cause, rfl, (Except.ok.inj hstep).symm⟩

end Step

end NetworkFlow.MaxFlow
