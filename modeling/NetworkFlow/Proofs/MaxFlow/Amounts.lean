import NetworkFlow.Proofs.Loads

/-!
# Amounts of the search for a feasible flow are in range

The search for a maximum flow fills the arcs out of the source and then discharges the nodes of
its queue. `Reached` says which states it passes, and where it stands then. All of them are
preflows, so at a node that is neither source nor target nothing exceeds the capacities there.
In the network with supply arcs these are the load of the node. The super source is the exception:
what it gives away is checked.

## Main results

* `Reached.preflow`: the search passes preflows only.
* `reached_run`: it ends in a state that it has passed.
* `FormsAmount.fits`: what is computed from amounts is one.
* `Problem.SearchForms.fits`, `Problem.abs_held_inner_le`: so it is when a feasible flow of a problem is
  looked for, and no node holds more than its load.
-/

namespace NetworkFlow

variable {n m : Nat}

namespace MaxFlow

section Reach

/-- Where a search stands. -/
inductive Stage (n m : Nat) where
  /-- Arcs out of the source are filled, and these are still to be looked at. -/
  | filling (rest : List (ResidualArc m))
  /-- Between two nodes. -/
  | waiting
  /-- A node is discharged. -/
  | discharging (u : Fin n)

/-- The states that a search passes. -/
inductive Reached (t : Terminals n m) : Stage n m → State n m → Prop where
  | blank : Reached t (.filling t.rows[t.source].toList)
      { flow := .const m 0, excess := .const n 0, label := (Table.const n 0).set t.source n
        current := .const n 0, active := [] }
  | fill {r : ResidualArc m} {rest : List (ResidualArc m)} {s s' : State n m}
      (h : Reached t (.filling (r :: rest)) s) (hfill : fill t s r = .ok s') :
      Reached t (.filling rest) s'
  | filled {s : State n m} (h : Reached t (.filling []) s) : Reached t .waiting s
  | take {s : State n m} {u : Fin n} {rest : List (Fin n)} (h : Reached t .waiting s)
      (hactive : s.active = u :: rest) : Reached t (.discharging u) { s with active := rest }
  | step {u : Fin n} {s s' : State n m} (h : Reached t (.discharging u) s)
      (hstep : dischargeStep t u s = .next s') : Reached t (.discharging u) s'
  | finish {u : Fin n} {s s' : State n m} (h : Reached t (.discharging u) s)
      (hstep : dischargeStep t u s = .done (.ok s')) : Reached t .waiting s'

variable {t : Terminals n m} {s s' : State n m} {u : Fin n} {fuel : Nat}

theorem Reached.foldlM_fill {rest : List (ResidualArc m)} (h : Reached t (.filling rest) s)
    (hfold : rest.foldlM (MaxFlow.fill t) s = .ok s') : Reached t .waiting s' := by
  induction rest generalizing s with
  | nil =>
      cases hfold
      exact h.filled
  | cons r rest ih =>
      rw [List.foldlM_cons] at hfold
      obtain ⟨s₁, hfill, hrest⟩ := bind_eq_ok.mp hfold
      exact ih (h.fill hfill) hrest

/-- A discharge passes no other states. -/
theorem reached_discharge (h : Reached t (.discharging u) s)
    (hdischarge : discharge t fuel s u = .ok (.ok s')) : Reached t .waiting s' := by
  refine iterate_invariant (P := Reached t (.discharging u))
    (Q := fun o => ∀ s', o = .ok s' → Reached t .waiting s') ?_ ?_ h hdischarge s' rfl
  · exact fun s₁ s₂ h₁ hstep => h₁.step (Except.ok.inj hstep)
  · rintro s₁ o h₁ hstep s' rfl
    exact h₁.finish (Except.ok.inj hstep)

/-- The loop over the queue passes no other states. -/
theorem reached_queueStep (h : Reached t .waiting s)
    (hstep : queueStep t fuel s = .ok (.next s')) : Reached t .waiting s' := by
  rcases queueStep_cases hstep with
    ⟨-, ⟨⟩⟩ | ⟨u, rest, _, hactive, hdischarge, ⟨_, -, ⟨⟩⟩ | ⟨_, rfl, ⟨⟩⟩⟩
  exact reached_discharge (h.take hactive) hdischarge

/-- The flow of the answer is that of a state that the search has passed. -/
theorem reached_run {net : Network n m} {source target : Fin n} {flow : Table Int m}
    (hrun : run fuel net source target = .ok (.ok flow)) :
    ∃ s, Reached (terminals net source target) .waiting s ∧ s.flow = flow := by
  rw [run_eq] at hrun
  split at hrun
  · cases hrun
  · rename_i s hstart
    obtain ⟨o, ho, hmap⟩ := map_eq_ok.mp hrun
    refine iterate_invariant (P := Reached (terminals net source target) .waiting)
      (Q := fun o => ∀ flow, o.map (·.flow) = .ok flow →
        ∃ s, Reached (terminals net source target) .waiting s ∧ s.flow = flow)
      (fun _ _ hs hstep => reached_queueStep hs hstep) ?_ (Reached.blank.foldlM_fill hstart) ho
      flow hmap
    intro s o hs hstep flow hflow
    rcases queueStep_done hstep with ⟨rfl, -⟩ | rfl
    · cases hflow
      exact ⟨s, hs, rfl⟩
    · cases hflow

end Reach

section Range

variable {t : Terminals n m} {s s' : State n m} {u : Fin n} {stage : Stage n m}

/-- A step of a discharge keeps a preflow. -/
theorem Preflow.dischargeStep (hrows : t.rows = t.toNetwork.rows) (h : Preflow t s)
    (hu : u ≠ t.target) (hstep : dischargeStep t u s = .next s') : Preflow t s' := by
  have hcases := dischargeStep_cases t u s
  rw [hstep] at hcases
  cases hcases with
  | lifted => exact ⟨h.within, h.excess_eq, h.outflow_nonpos, h.inner⟩
  | pushed hpos hr _ hpush => exact h.push (Network.source_of_place hrows hr) hu hpos.le hpush
  | moved => exact ⟨h.within, h.excess_eq, h.outflow_nonpos, h.inner⟩

/-- What holds at a stage of the search. -/
def Stage.Holds (t : Terminals n m) (s : State n m) : Stage n m → Prop
  | .filling rest => (∃ done, Filling t done s) ∧ ∀ r ∈ rest, t.toNetwork.source r = t.source
  | .waiting => Preflow t s
  | .discharging u => Preflow t s ∧ u ≠ t.source ∧ u ≠ t.target

theorem Stage.Holds.preflow (h : stage.Holds t s) : Preflow t s := by
  cases stage with
  | filling rest =>
      obtain ⟨⟨_, hfilling⟩, -⟩ := h
      exact hfilling.toPreflow
  | waiting => exact h
  | discharging u => exact h.1

/-- At every stage a search has a preflow, and it discharges neither source nor target. -/
theorem Reached.holds (hrows : t.rows = t.toNetwork.rows) (hcap : ∀ a : Fin m, 0 ≤ t.cap[a])
    (h : Reached t stage s) : stage.Holds t s := by
  induction h with
  | blank => exact ⟨⟨[], filling_start hcap⟩, fun r hr => (Network.mem_row hrows).mp hr⟩
  | @fill r rest s s' _ hfill ih =>
      obtain ⟨⟨done, hfilling⟩, hrest⟩ := ih
      exact ⟨⟨r :: done, hfilling.fill (hrest r (by simp)) hfill⟩, fun r' hr' => hrest r' (by simp [hr'])⟩
  | filled _ ih => exact Stage.Holds.preflow ih
  | @take s u rest _ hactive ih =>
      have hpre : Preflow t s := ih
      obtain ⟨hsource, htarget⟩ := hpre.inner u (by simp [hactive])
      refine ⟨⟨hpre.within, hpre.excess_eq, hpre.outflow_nonpos, fun v hv => ?_⟩, hsource, htarget⟩
      exact hpre.inner v (by simp [hactive, show v ∈ rest from hv])
  | step _ hstep ih =>
      obtain ⟨hpre, hsource, htarget⟩ := ih
      exact ⟨hpre.dischargeStep hrows htarget hstep, hsource, htarget⟩
  | finish _ hstep ih =>
      rcases dischargeStep_done hstep with ⟨heq, -⟩ | heq <;> cases heq
      exact ih.1

theorem Reached.preflow (hrows : t.rows = t.toNetwork.rows) (hcap : ∀ a : Fin m, 0 ≤ t.cap[a])
    (h : Reached t stage s) : Preflow t s :=
  (h.holds hrows hcap).preflow

/-- What is computed when an amount is moved along a residual arc: what is taken away as a negative
amount, the new flow of the arc and, except at the source and the target, the excesses of its
ends. -/
inductive Counts (t : Terminals n m) (s : State n m) (r : ResidualArc m) (amount : Int) :
    Int → Prop where
  | negated : Counts t s r amount (-amount)
  | flow : Counts t s r amount (sendAlong s.flow r amount)[r.arc]
  | left (hsource : t.toNetwork.source r ≠ t.source) (htarget : t.toNetwork.source r ≠ t.target) :
      Counts t s r amount (s.excess[t.toNetwork.source r] + -amount)
  | arrived {s' : State n m} (hleft : addExcess t s (t.toNetwork.source r) (-amount) = .ok s')
      (hsource : t.toNetwork.target r ≠ t.source) (htarget : t.toNetwork.target r ≠ t.target) :
      Counts t s r amount (s'.excess[t.toNetwork.target r] + amount)

/-- What is computed from amounts: rooms, the flows that are booked with the opposite sign on the
residual arcs that run backward, and what is moved when an arc out of the source is filled or a
node pushes. -/
inductive FormsAmount (t : Terminals n m) : Int → Prop where
  | room {stage : Stage n m} {s : State n m} (h : Reached t stage s) (r : ResidualArc m) :
      FormsAmount t (t.room s.flow r)
  | opposite {stage : Stage n m} {s : State n m} (h : Reached t stage s) (a : Fin m) :
      FormsAmount t (-s.flow[a])
  | filled {r : ResidualArc m} {rest : List (ResidualArc m)} {s : State n m} {x : Int}
      (h : Reached t (.filling (r :: rest)) s) (hroom : 0 < t.room s.flow r)
      (hx : Counts t s r (t.room s.flow r) x) : FormsAmount t x
  | pushed {u : Fin n} {r : ResidualArc m} {s : State n m} {x : Int}
      (h : Reached t (.discharging u) s) (hexcess : 0 < s.excess[u])
      (hr : t.rows[u][s.current[u]]? = some r)
      (hx : Counts t s r (min s.excess[u] (t.room s.flow r)) x) : FormsAmount t x

/-- The capacity of every arc is an amount, and so is what the capacities at a node add up to, except
at the source and the target. -/
structure Light (t : Terminals n m) : Prop where
  cap_nonneg : ∀ a : Fin m, 0 ≤ t.cap[a]
  cap_le : ∀ a : Fin m, t.cap[a] ≤ Amount.largest
  capacityAt_le : ∀ v, v ≠ t.source → v ≠ t.target → t.capacityAt v ≤ Amount.largest

theorem Counts.fits (hlight : Light t) (h : Preflow t s) {r : ResidualArc m} {amount x : Int}
    (hpos : 0 ≤ amount) (hroom : amount ≤ t.room s.flow r) (hx : Counts t s r amount x) :
    Width.bits64.Fits x := by
  cases hx with
  | negated =>
      have hle := (hroom.trans (h.within.room_le r)).trans (hlight.cap_le r.arc)
      apply fits_of_abs_le
      rwa [abs_neg, abs_of_nonneg hpos]
  | flow => exact (h.within.sendAlong hpos hroom).fits_flow (hlight.cap_le r.arc)
  | left hsource htarget =>
      exact fits_of_abs_le ((abs_left_le h.within h.excess_eq hpos hroom htarget).trans
        (hlight.capacityAt_le _ hsource htarget))
  | arrived hleft hsource htarget =>
      exact fits_of_abs_le ((abs_arrived_le h.within h.excess_eq hpos hroom hleft htarget).trans
        (hlight.capacityAt_le _ hsource htarget))

/-- What the search computes from amounts is one. -/
theorem FormsAmount.fits (hrows : t.rows = t.toNetwork.rows) (hlight : Light t) {x : Int}
    (h : FormsAmount t x) : Width.bits64.Fits x := by
  have hpre : ∀ {stage s}, Reached t stage s → Preflow t s :=
    fun hs => hs.preflow hrows hlight.cap_nonneg
  cases h with
  | room hs r => exact (hpre hs).within.fits_room (hlight.cap_le r.arc)
  | opposite hs a =>
      obtain ⟨hlo, hhi⟩ := (hpre hs).within a
      apply fits_of_abs_le
      rw [abs_neg, abs_of_nonneg hlo]
      exact hhi.trans (hlight.cap_le a)
  | filled hs hroom hx => exact hx.fits hlight (hpre hs) hroom.le le_rfl
  | pushed hs hexcess _ hx =>
      exact hx.fits hlight (hpre hs) (le_min hexcess.le ((hpre hs).within.room_nonneg _))
        (min_le_right _ _)

end Range

end MaxFlow

namespace Problem

variable {α : Type} {p : Problem n m α}

/-- The network in which a feasible flow of a problem is looked for. -/
def search (p : Problem n m α) :
    MaxFlow.Terminals (n + 2) (m + (SupplyArc.ofSupplies p.supply).size) :=
  MaxFlow.terminals p.withSupplyArcs (SupplyArc.source n) (SupplyArc.sink n)

/-- What is computed from amounts when a feasible flow of a problem is looked for: the capacities
of the arcs that drain nodes, what the search for a maximum flow computes and the sum of what
the super source feeds, arc by arc. -/
inductive SearchForms (p : Problem n m α) : Int → Prop where
  | drained {v : Fin n} (h : p.supply[v] < 0) : SearchForms p (-p.supply[v])
  | searched {x : Int} (h : MaxFlow.FormsAmount p.search x) : SearchForms p x
  | supplied {demand : Int} {fuel : Nat} {flow : Table Int (m + (SupplyArc.ofSupplies p.supply).size)}
      (hdemand : p.demand = .ok demand)
      (hrun : MaxFlow.run fuel p.withSupplyArcs (SupplyArc.source n) (SupplyArc.sink n) =
        .ok (.ok flow)) (count : Nat) :
      SearchForms p (((List.finRange (SupplyArc.ofSupplies p.supply).size).take count).map fun i =>
        if (Table.ofArray (SupplyArc.ofSupplies p.supply))[i].tail = SupplyArc.source n
        then flow[Fin.natAdd m i] else 0).sum

/-- The network with supply arcs is light: at the nodes of the problem the capacities add up to their
loads. -/
theorem light_search (hp : p.amounts.Prepared) : MaxFlow.Light p.search := by
  have hnet : p.search.toNetwork = p.withSupplyArcs := clip_withSupplyArcs (p := p.amounts) hp
  have hnonneg : ∀ a : Fin (m + (SupplyArc.ofSupplies p.supply).size), 0 ≤ p.search.cap[a] := fun a => by
    simp [search, MaxFlow.terminals, MaxFlow.clip]
  have hinner : ∀ v, p.search.capacityAt (SupplyArc.inner v) ≤ Amount.largest := by
    intro v
    rw [hnet]
    exact ((capacityAt_inner (p := p.amounts) v).trans_le (hp.load_le v)).trans (by decide)
  refine ⟨hnonneg, fun a => ?_, fun w hsource htarget => ?_⟩
  · -- every arc has an end among the nodes of the problem
    obtain ⟨v, hv⟩ : ∃ v, p.search.tail[a] = SupplyArc.inner v ∨
        p.search.head[a] = SupplyArc.inner v := by
      rw [show p.search.tail = p.withSupplyArcs.tail from congrArg Network.tail hnet,
        show p.search.head = p.withSupplyArcs.head from congrArg Network.head hnet]
      induction a using Fin.addCases with
      | left a => exact ⟨p.tail[a], Or.inl (by simp [withSupplyArcs])⟩
      | right i =>
          obtain ⟨-, v, ⟨-, hhead⟩ | ⟨htail, -⟩⟩ := p.amounts.supplyArc_spec i
          · exact ⟨v, Or.inr (by simpa [withSupplyArcs, supplyArc, amounts] using hhead)⟩
          · exact ⟨v, Or.inl (by simpa [withSupplyArcs, supplyArc, amounts] using htail)⟩
    exact (Network.cap_le_capacityAt hnonneg hv).trans (hinner v)
  · obtain ⟨v, rfl⟩ := eq_inner (n := n) hsource htarget
    exact hinner v

/-- While a feasible flow is looked for, no node of the problem holds more than its load. -/
theorem abs_held_inner_le (hp : p.amounts.Prepared) {stage : MaxFlow.Stage (n + 2) _}
    {s : MaxFlow.State (n + 2) _} (h : MaxFlow.Reached p.search stage s) (v : Fin n) :
    |s.excess[SupplyArc.inner v]| ≤ p.load v := by
  have hpre := h.preflow rfl (light_search hp).cap_nonneg
  have hnet : p.search.toNetwork = p.withSupplyArcs := clip_withSupplyArcs (p := p.amounts) hp
  rw [hpre.excess_eq _ (inner_ne_sink v), abs_neg]
  refine (hpre.within.abs_outflow_le _).trans ?_
  rw [hnet]
  exact (capacityAt_inner (p := p.amounts) v).le

/-- What is computed from amounts when a feasible flow is looked for is one. -/
theorem SearchForms.fits (hp : p.amounts.Prepared) {x : Int} (h : SearchForms p x) :
    Width.bits64.Fits x := by
  have hlimit : Amount.loadLimit ≤ Amount.largest := by decide
  cases h with
  | @drained v _ =>
      apply MaxFlow.fits_of_abs_le
      rw [abs_neg]
      exact (hp.abs_supply_le v).trans hlimit
  | searched h => exact h.fits rfl (light_search hp)
  | @supplied demand fuel flow hdemand hrun count =>
      have hmax := MaxFlow.run_ok source_ne_sink hrun
      rw [show MaxFlow.clip p.withSupplyArcs = p.withSupplyArcs from
        clip_withSupplyArcs (p := p.amounts) hp] at hmax
      set fed : Fin (SupplyArc.ofSupplies p.supply).size → Int := fun i =>
        if (Table.ofArray (SupplyArc.ofSupplies p.supply))[i].tail = SupplyArc.source n
        then flow[Fin.natAdd m i] else 0 with hfed
      have hnonneg : ∀ i, 0 ≤ fed i := by
        intro i
        have := (hmax.within (Fin.natAdd m i)).1
        simp only [hfed]
        split_ifs <;> omega
      -- what is fed so far is part of the whole, and that is at most the demand
      have hsplit := congrArg (fun is => (is.map fed).sum)
        (List.take_append_drop count (List.finRange (SupplyArc.ofSupplies p.supply).size))
      simp only [List.map_append, List.sum_append] at hsplit
      have htotal : ((List.finRange (SupplyArc.ofSupplies p.supply).size).map fed).sum ≤ demand := by
        have hvalue := p.amounts.suppliedBy_eq flow
        have hle := (le_abs_self _).trans (hmax.within.abs_outflow_le (SupplyArc.source n))
        rw [p.amounts.demand_eq hdemand]
        exact (show _ = _ from hvalue).trans_le (hle.trans_eq (capacityAt_source (p := p.amounts)))
      have htake := List.sum_nonneg (l := ((List.finRange _).take count).map fed) fun x hx => by
        obtain ⟨i, -, rfl⟩ := List.mem_map.mp hx
        exact hnonneg i
      have hdrop := List.sum_nonneg (l := ((List.finRange _).drop count).map fed) fun x hx => by
        obtain ⟨i, -, rfl⟩ := List.mem_map.mp hx
        exact hnonneg i
      have hfits := fits_of_foldlM_checked Width.bits64.fits_zero hdemand
      obtain ⟨-, hlt⟩ := hfits
      have hhalf := Width.bits64.half_pos
      exact ⟨by omega, by omega⟩

end Problem

end NetworkFlow
