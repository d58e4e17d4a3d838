import NetworkFlow.CapacityScaling.Solve
import NetworkFlow.Proofs.CapacityScaling.Search
import NetworkFlow.Proofs.Iteration
import NetworkFlow.Proofs.Prepared

/-!
# What a phase does to a state

A state is sound if its flow stays within the capacities and the excesses are what
the flow leaves of the supplies. Every operation keeps a state sound, whatever the
costs are computed in. With exact costs, filling the residual arcs of negative reduced
cost makes a sound state `WideOptimal`, and an augmentation keeps it so: the potentials
drop by so much that the arcs of the way get the reduced cost zero, and the arcs
against it, which may become wide, too.

## Main results

* `sound_start`, `Sound.saturateNegative`, `Sound.augment`: states are sound.
* `wideOptimal_saturateNegative`: after filling, no wide residual arc has a negative
  reduced cost.
* `WideOptimal.augment`: an augmentation keeps it so.
* `surplus_augment`: an augmentation lowers what the nodes have to get rid of.
-/

namespace NetworkFlow.CapacityScaling

open Finset
open scoped ExactCosts

variable {n m : Nat} {delta : Int}

section Push

variable {α : Type} {p : Indexed n m α} {st : State n m α}

/-- The flow stays within the capacities, and the excesses are what it leaves of the supplies. -/
structure Sound (p : Indexed n m α) (st : State n m α) : Prop where
  within : p.Within st.flow
  balanced : ∀ v : Fin n, st.excess[v] + p.outflow st.flow v = p.supply[v]

theorem Sound.sum_excess (h : Sound p st) (hp : p.amounts.Prepared) :
    ∑ v : Fin n, st.excess[v] = 0 := by
  have hsum : ∑ v : Fin n, (st.excess[v] + p.outflow st.flow v) = ∑ v : Fin n, p.supply[v] :=
    sum_congr rfl fun v _ => h.balanced v
  rw [sum_add_distrib, p.sum_outflow, show ∑ v : Fin n, p.supply[v] = 0 from hp.sum_supply] at hsum
  omega

theorem getElem_excess_push (st : State n m α) (r : ResidualArc m) {amount : Int}
    (h : 0 ≤ amount) (v : Fin n) : (push p st r amount).excess[v] =
      st.excess[v] - ((if p.source r = v then amount else 0) -
        if p.target r = v then amount else 0) := by
  unfold push
  split
  · simp only [Table.getElem_set]
    by_cases hs : p.source r = v <;> by_cases ht : p.target r = v
    · simp only [hs, ht, if_true]
      ring
    · simp only [hs, ht, if_true, if_false]
      ring
    · simp only [hs, ht, if_true, if_false]
      ring
    · simp only [hs, ht, if_false]
      ring
  · obtain rfl : amount = 0 := by omega
    simp

theorem flow_push (st : State n m α) (r : ResidualArc m) {amount : Int} (h : 0 ≤ amount) :
    (push p st r amount).flow = sendAlong st.flow r amount := by
  unfold push
  split
  · rfl
  · obtain rfl : amount = 0 := by omega
    exact (sendAlong_zero _ _).symm

theorem potential_push (st : State n m α) (r : ResidualArc m) (amount : Int) :
    (push p st r amount).potential = st.potential := by
  unfold push
  split <;> rfl

/-- Filling a residual arc keeps a state sound. -/
theorem Sound.push (h : Sound p st) (r : ResidualArc m) :
    Sound p (push p st r (p.room st.flow r)) := by
  have hroom := h.within.room_nonneg r
  constructor
  · rw [flow_push st r hroom]
    exact h.within.sendAlong hroom le_rfl
  · intro v
    rw [flow_push st r hroom, getElem_excess_push st r hroom, p.outflow_sendAlong,
      ← h.balanced v]
    ring

/-- A filled residual arc has no room. -/
theorem room_push_self (h : Sound p st) (r : ResidualArc m) :
    p.room (CapacityScaling.push p st r (p.room st.flow r)).flow r = 0 := by
  rw [flow_push st r (h.within.room_nonneg r), p.room_sendAlong_self]
  omega

/-- Only the residual arcs of one arc change their room. -/
theorem room_push_of_ne (h : Sound p st) {r r' : ResidualArc m} (hne : r.arc ≠ r'.arc) :
    p.room (CapacityScaling.push p st r (p.room st.flow r)).flow r' = p.room st.flow r' := by
  rw [flow_push st r (h.within.room_nonneg r), p.room_sendAlong_of_ne hne]

/-- A fold whose steps keep states sound keeps them sound. -/
theorem Sound.foldl {ι : Type} {step : State n m α → ι → State n m α}
    (hstep : ∀ st x, Sound p st → Sound p (step st x)) (xs : List ι) (h : Sound p st) :
    Sound p (xs.foldl step st) :=
  List.foldlRecOn xs step h fun st hs x _ => hstep st x hs

variable [Scalar α]

theorem Sound.saturate (h : Sound p st) (r : ResidualArc m) :
    Sound p (saturate p delta st r) := by
  unfold CapacityScaling.saturate
  split
  · exact h.push r
  · exact h

theorem Sound.saturateNegative (h : Sound p st) (delta : Int) :
    Sound p (saturateNegative p delta st) :=
  h.foldl (fun _ r hs => hs.saturate r) _

/-- The state before the first phase is sound. -/
theorem sound_start (hp : p.amounts.Prepared) : Sound p (start p) := by
  have hzero : Sound p { flow := .const m 0, potential := .const n 0, excess := p.supply } :=
    ⟨hp.within_zero, fun v => by simp [Network.outflow]⟩
  refine hzero.foldl (fun st a h => ?_) _
  unfold fillNegative
  split
  · exact h.push _
  · exact h

end Push

section Saturate

variable [inst : ExactCosts] {p : Indexed n m Int} {st : State n m Int}

/-- A wide residual arc has no negative reduced cost. -/
def Priced (p : Indexed n m Int) (st : State n m Int) (delta : Int) (r : ResidualArc m) : Prop :=
  delta ≤ p.room st.flow r → 0 ≤ p.reduced p.cost st.potential r

theorem saturate_eq (hp : p.Prepared) (r : ResidualArc m) :
    saturate p delta st r =
      if delta ≤ p.room st.flow r ∧ p.reduced p.cost st.potential r < 0 then
        CapacityScaling.push p st r (p.room st.flow r)
      else st := by
  unfold saturate
  simp only [reducedCost_eq, scalar_lt_iff, hp.tolerance_eq, scalar_neg_eq, neg_zero]

/-- Filling one residual arc prices it and keeps the others priced. -/
theorem priced_saturate (h : Sound p st) (hp : p.Prepared) (hdelta : 1 ≤ delta)
    (r : ResidualArc m) {r' : ResidualArc m} (hr : r' = r ∨ Priced p st delta r') :
    Priced p (saturate p delta st r) delta r' := by
  rw [saturate_eq hp]
  split
  · rename_i hneg
    intro hwide
    rw [potential_push]
    by_cases harc : r.arc = r'.arc
    · rcases ResidualArc.eq_or_eq_reverse harc with rfl | rfl
      · rw [room_push_self h] at hwide
        omega
      · rw [p.reduced_reverse]
        omega
    · rw [room_push_of_ne h harc] at hwide
      refine hr.resolve_left ?_ hwide
      rintro rfl
      exact harc rfl
  · rename_i hfine
    rcases hr with rfl | hr
    · intro hwide
      by_contra hneg
      exact hfine ⟨hwide, not_le.mp hneg⟩
    · exact hr

/-- After filling, no wide residual arc has a negative reduced cost. -/
theorem wideOptimal_saturateNegative (hp : p.Prepared) (hdelta : 1 ≤ delta) (h : Sound p st) :
    WideOptimal p (saturateNegative p delta st) delta := by
  obtain ⟨-, -, hpriced⟩ := foldl_forall (saturate p delta) (P := Sound p)
    (Q := fun st => Priced p st delta) (fun _ r hs => hs.saturate r)
    (fun _ r _ hs => priced_saturate hs hp hdelta r) (ResidualArc.all m) h
  exact fun r => hpriced r (ResidualArc.mem_all r)

end Saturate

section Shift

variable [inst : ExactCosts]

omit inst in
theorem getElem_shift_of_notMem {α : Type} [Scalar α] {settled : List (Fin n × α)} {v : Fin n}
    (h : v ∉ settled.map (·.1)) (potential : Table α n) (dist : α) :
    (shift potential settled dist)[v] = potential[v] := by
  induction settled generalizing potential with
  | nil => rfl
  | cons x xs ih =>
      rw [List.map_cons, List.mem_cons, not_or] at h
      show (shift (potential.set x.1 _) xs dist)[v] = _
      rw [ih h.2, Table.getElem_set_of_ne _ _ (Ne.symm h.1)]

/-- A settled node loses what it is nearer than the target. -/
theorem getElem_shift_of_mem {settled : List (Fin n × Int)} {v : Fin n} {d : Int}
    (hnodup : (settled.map (·.1)).Nodup) (h : (v, d) ∈ settled) (potential : Table Int n)
    (dist : Int) : (shift potential settled dist)[v] = potential[v] + (d - dist) := by
  induction settled generalizing potential with
  | nil => simp at h
  | cons x settled ih =>
      rw [List.map_cons, List.nodup_cons] at hnodup
      rcases List.mem_cons.mp h with rfl | h
      · show (shift (potential.set v _) settled dist)[v] = _
        rw [getElem_shift_of_notMem hnodup.1, Table.getElem_set_self, scalar_add_eq,
          scalar_sub_eq]
      · have hne : x.1 ≠ v := by
          rintro rfl
          exact hnodup.1 (List.mem_map_of_mem (f := (·.1)) h)
        show (shift (potential.set x.1 _) settled dist)[v] = _
        rw [ih hnodup.2 h, Table.getElem_set_of_ne _ _ hne]

/-- Settled nodes are not farther than the target, so no potential rises. -/
theorem getElem_shift_le {settled : List (Fin n × Int)} {dist : Int}
    (hnodup : (settled.map (·.1)).Nodup) (hle : ∀ v d, (v, d) ∈ settled → d ≤ dist)
    (potential : Table Int n) (v : Fin n) :
    (shift potential settled dist)[v] ≤ potential[v] := by
  by_cases hv : v ∈ settled.map (·.1)
  · obtain ⟨⟨w, d⟩, hmem, heq⟩ := List.mem_map.mp hv
    obtain rfl : w = v := heq
    have := hle w d hmem
    rw [getElem_shift_of_mem hnodup hmem]
    omega
  · rw [getElem_shift_of_notMem hv]

end Shift

section Augment

variable {α : Type} {p : Indexed n m α} {st : State n m α} {s : Fin n} {way : Route n m α}

/-- What an augmentation sends. -/
def sent (p : Indexed n m α) (st : State n m α) (s : Fin n) (way : Route n m α) : Int :=
  way.path.foldl (fun least r => min least (p.room st.flow r))
    (min st.excess[s] (-st.excess[way.target]))

/-- An augmentation sends no more than its start has, its end needs and its arcs have room for. -/
theorem sent_le (p : Indexed n m α) (st : State n m α) (s : Fin n) (way : Route n m α) :
    sent p st s way ≤ st.excess[s] ∧ sent p st s way ≤ -st.excess[way.target] ∧
      ∀ r ∈ way.path, sent p st s way ≤ p.room st.flow r := by
  obtain ⟨hstart, hmem, -⟩ := p.foldl_min_room st.flow way.path
    (min st.excess[s] (-st.excess[way.target]))
  exact ⟨hstart.trans (min_le_left _ _), hstart.trans (min_le_right _ _), hmem⟩

/-- An augmentation sends at least `delta`. -/
theorem le_sent (hway : way.Usable p st s delta) (hs : delta ≤ st.excess[s]) :
    delta ≤ sent p st s way := by
  have hdeficit := hway.deficit
  obtain ⟨-, -, hgreatest⟩ := p.foldl_min_room st.flow way.path
    (min st.excess[s] (-st.excess[way.target]))
  exact hgreatest delta (le_min hs (by omega)) hway.wide

variable [Scalar α]

theorem flow_augment (st : State n m α) (s : Fin n) (way : Route n m α) :
    (augment p st s way).flow = sendAll st.flow way.path (sent p st s way) := rfl

theorem excess_augment (hne : way.target ≠ s) (v : Fin n) :
    (augment p st s way).excess[v] = st.excess[v] -
      ((if s = v then sent p st s way else 0) - if way.target = v then sent p st s way else 0) := by
  show ((st.excess.set s (st.excess[s] - sent p st s way)).set way.target
    ((st.excess.set s (st.excess[s] - sent p st s way))[way.target] + sent p st s way))[v] = _
  simp only [Table.getElem_set]
  by_cases hs : s = v <;> by_cases ht : way.target = v
  · exact absurd (ht.trans hs.symm) hne
  · simp only [hs, ht, if_true, if_false]
    omega
  · subst ht
    simp only [hs, if_true, if_false]
    omega
  · simp only [hs, ht, if_false]
    omega

/-- An augmentation keeps a state sound. -/
theorem Sound.augment (h : Sound p st) (hdelta : 1 ≤ delta) (hway : way.Usable p st s delta)
    (hs : delta ≤ st.excess[s]) : Sound p (augment p st s way) := by
  have hleast := le_sent hway hs
  constructor
  · rw [flow_augment]
    exact h.within.sendAll hway.nodup.of_map (by omega) (sent_le p st s way).2.2
  · intro v
    rw [excess_augment hway.target_ne, flow_augment, Network.outflow_sendAll hway.leads,
      ← h.balanced v]
    ring

/-- With a `delta` that is not positive, a way stays usable, and its start keeps its excess. -/
theorem Route.Usable.augment (hway : way.Usable p st s delta) (hdelta : delta ≤ 0) :
    way.Usable p (augment p st s way) s delta ∧ delta ≤ (augment p st s way).excess[s] := by
  obtain ⟨hstart, hend, hroom⟩ := sent_le p st s way
  refine ⟨⟨hway.target_ne, ?_, hway.leads, hway.nodup, fun r hr => ?_⟩, ?_⟩
  · rw [excess_augment hway.target_ne, if_neg hway.target_ne.symm, if_pos rfl]
    omega
  · have := hroom r hr
    rw [flow_augment, p.room_sendAll_self hway.nodup hr]
    omega
  · rw [excess_augment hway.target_ne, if_pos rfl, if_neg hway.target_ne]
    omega

/-- What the nodes have to get rid of. -/
def surplus (st : State n m α) : Nat := ∑ v : Fin n, st.excess[v].toNat

/-- An augmentation lowers what the nodes have to get rid of. -/
theorem surplus_augment (hdelta : 1 ≤ delta) (hway : way.Usable p st s delta)
    (hs : delta ≤ st.excess[s]) : surplus (augment p st s way) < surplus st := by
  have hleast := le_sent hway hs
  obtain ⟨hstart, hend, -⟩ := sent_le p st s way
  have hexcess : ∀ v : Fin n, (augment p st s way).excess[v] = st.excess[v] -
      ((if s = v then sent p st s way else 0) -
        if way.target = v then sent p st s way else 0) := excess_augment hway.target_ne
  refine sum_lt_sum (fun v _ => ?_) ⟨s, mem_univ s, ?_⟩
  · rw [hexcess v]
    by_cases hv : way.target = v
    · subst hv
      simp only [if_true, hway.target_ne.symm, if_false]
      omega
    · simp only [hv, if_false]
      split <;> omega
  · rw [hexcess s]
    simp only [if_true, hway.target_ne, if_false]
    omega

end Augment

section Price

variable [inst : ExactCosts] {p : Indexed n m Int} {st : State n m Int} {s : Fin n}
  {way : Route n m Int}

/-- An augmentation leaves no wide residual arc with a negative reduced cost. -/
theorem WideOptimal.augment (hopt : WideOptimal p st delta)
    (hway : Route.Valid p st s delta way) :
    WideOptimal p (augment p st s way) delta := by
  intro r hwide
  have hdrop := getElem_shift_le hway.settled_nodup hway.le_dist st.potential
  have hnodup := hway.settled_nodup
  show 0 ≤ p.reduced p.cost (shift st.potential way.settled way.dist) r
  rw [flow_augment] at hwide
  -- an arc that is wide now was wide before or runs against the way
  have hbefore : delta ≤ p.room st.flow r ∨ r.reverse ∈ way.path := by
    rcases ResidualArc.mem_or_reverse_mem_or_notMem way.path r with hr | hr | hr
    · exact Or.inl (hway.wide r hr)
    · exact Or.inr hr
    · rw [p.room_sendAll_of_notMem hr] at hwide
      exact Or.inl hwide
  rcases hbefore with hroom | hr
  · have hnonneg := hopt r hroom
    have htarget := hdrop (p.target r)
    unfold Network.reduced at hnonneg ⊢
    by_cases hsource : p.source r ∈ way.settled.map (·.1)
    · obtain ⟨⟨u, du⟩, hu, hueq⟩ := List.mem_map.mp hsource
      obtain rfl : u = p.source r := hueq
      rw [getElem_shift_of_mem hnodup hu]
      rcases hway.relaxed r du hroom hu with ⟨dv, hv, hle⟩ | hle
      · rw [getElem_shift_of_mem hnodup hv]
        unfold Network.reduced at hle
        omega
      · unfold Network.reduced at hle
        omega
    · rw [getElem_shift_of_notMem hsource]
      omega
  · obtain ⟨du, dv, hu, hv, heq⟩ := hway.tight _ hr
    rw [p.source_reverse] at hu
    rw [p.target_reverse] at hv
    rw [p.reduced_reverse] at heq
    unfold Network.reduced at heq ⊢
    rw [getElem_shift_of_mem hnodup hu, getElem_shift_of_mem hnodup hv]
    omega

end Price

end NetworkFlow.CapacityScaling
