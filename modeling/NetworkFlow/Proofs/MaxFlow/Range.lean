import NetworkFlow.Proofs.MaxFlow.Feasible

/-!
# Excesses stay in range

Excesses are checked sums. What a node holds a flow within the capacities has brought to it, so
no excess, and nothing on the way from one to the next, exceeds the capacities at the
node. If these add up to an amount at every node but the target, which does not count
what it holds, no push is refused.

For the network with supply arcs that is so as soon as the demand is an amount: at the
nodes of the problem the capacities add up to their load, at the super source to the
demand.

## Main results

* `exists_push`, `exists_start`: no operation is refused.
* `run_ne_error`, `feasibleFlow_ne_refused`: neither is the search.
-/

namespace NetworkFlow

open Finset

variable {n m : Nat}

namespace Network

/-- The capacities of the arcs at a node; those of loops count twice. -/
def capacityAt (net : Network n m) (v : Fin n) : Int :=
  ∑ a : Fin m, ((if net.tail[a] = v then net.cap[a] else 0) +
    if net.head[a] = v then net.cap[a] else 0)

/-- What leaves a node in one flow and enters it in another one differs by no more than the
capacities at the node. -/
theorem abs_sub_le_capacityAt {net : Network n m} {flow other : Table Int m}
    (hflow : net.Within flow) (hother : net.Within other) (v : Fin n) :
    |∑ a : Fin m, ((if net.tail[a] = v then flow[a] else 0) -
      if net.head[a] = v then other[a] else 0)| ≤ net.capacityAt v := by
  refine (abs_sum_le_sum_abs _ _).trans (sum_le_sum fun a _ => ?_)
  have hleaving := hflow a
  have hentering := hother a
  rw [abs_le]
  split_ifs <;> omega

theorem Within.abs_outflow_le {net : Network n m} {flow : Table Int m} (h : net.Within flow)
    (v : Fin n) : |net.outflow flow v| ≤ net.capacityAt v :=
  abs_sub_le_capacityAt h h v

/-- What is sent along a residual arc may have left the one end of the arc before it arrives at the
other one. -/
theorem Within.abs_outflow_add_le {net : Network n m} {flow : Table Int m} {r : ResidualArc m}
    {amount : Int} (h : net.Within flow) (hpos : 0 ≤ amount) (hroom : amount ≤ net.room flow r) :
    |net.outflow flow (net.source r) + amount| ≤ net.capacityAt (net.source r) := by
  have hsent := h.sendAlong hpos hroom
  have hleaving : net.Within (if r.backward then flow else NetworkFlow.sendAlong flow r amount) := by
    split
    · exact h
    · exact hsent
  have hentering : net.Within
      (if r.backward then NetworkFlow.sendAlong flow r amount else flow) := by
    split
    · exact hsent
    · exact h
  have hterm : ∀ b : Fin m,
      ((if net.tail[b] = net.source r then
          (if r.backward then flow else NetworkFlow.sendAlong flow r amount)[b] else 0) -
        if net.head[b] = net.source r then
          (if r.backward then NetworkFlow.sendAlong flow r amount else flow)[b] else 0) =
      ((if net.tail[b] = net.source r then flow[b] else 0) -
        if net.head[b] = net.source r then flow[b] else 0) + if r.arc = b then amount else 0 := by
    intro b
    obtain ⟨a, backward⟩ := r
    by_cases hb : a = b
    · subst hb
      cases backward <;> simp [source, getElem_sendAlong] <;> ring
    · cases backward <;> simp [getElem_sendAlong, hb]
  have hle := abs_sub_le_capacityAt hleaving hentering (net.source r)
  rw [sum_congr rfl fun b _ => hterm b, sum_add_distrib, sum_ite_eq, if_pos (mem_univ _)] at hle
  exact hle

end Network

namespace MaxFlow

open Network

variable {t : Terminals n m} {s s' : State n m} {u : Fin n} {fuel : Nat} {cause : Error}

/-- At every node but the target the capacities add up to an amount. -/
def Roomy (t : Terminals n m) : Prop := ∀ v, v ≠ t.target → t.capacityAt v ≤ Amount.largest

theorem fits_of_abs_le {x : Int} (h : |x| ≤ Amount.largest) : Width.bits64.Fits x := by
  rw [abs_le] at h
  unfold Amount.largest at h
  simp only [Width.Fits, Width.half]
  omega

theorem exists_addExcess {amount : Int}
    (h : u ≠ t.target → Width.bits64.Fits (s.excess[u] + amount)) :
    ∃ s', addExcess t s u amount = .ok s' := by
  unfold addExcess
  by_cases hu : u = t.target
  · exact ⟨s, if_pos hu⟩
  · simp only [if_neg hu, Amount.checked_eq_ok.mpr ⟨h hu, rfl⟩, bind, Except.bind]
    split <;> exact ⟨_, rfl⟩

/-- What stays at the node that an amount leaves is within the capacities there, if the excesses are
those of a flow. -/
theorem abs_left_le {flow : Table Int m} (hwithin : t.Within flow)
    (hexcess : ∀ v, v ≠ t.target → s.excess[v] = -t.outflow flow v) {r : ResidualArc m}
    {amount : Int} (hpos : 0 ≤ amount) (hroom : amount ≤ t.room flow r)
    (hu : t.toNetwork.source r ≠ t.target) :
    |s.excess[t.toNetwork.source r] + -amount| ≤ t.capacityAt (t.toNetwork.source r) := by
  rw [hexcess _ hu, ← neg_add, abs_neg]
  exact hwithin.abs_outflow_add_le hpos hroom

/-- So is what the node has at which it arrives. -/
theorem abs_arrived_le {flow : Table Int m} (hwithin : t.Within flow)
    (hexcess : ∀ v, v ≠ t.target → s.excess[v] = -t.outflow flow v) {r : ResidualArc m}
    {amount : Int} (hpos : 0 ≤ amount) (hroom : amount ≤ t.room flow r)
    (hleft : addExcess t s (t.toNetwork.source r) (-amount) = .ok s')
    (hv : t.toNetwork.target r ≠ t.target) :
    |s'.excess[t.toNetwork.target r] + amount| ≤ t.capacityAt (t.toNetwork.target r) := by
  have hsum : s'.excess[t.toNetwork.target r] + amount =
      -t.outflow (sendAlong flow r amount) (t.toNetwork.target r) := by
    rw [(addExcess_spec hleft).2.excess_eq _ hv, hexcess _ hv, outflow_sendAlong_gain, gainAlong]
    split_ifs <;> omega
  rw [hsum, abs_neg]
  exact (hwithin.sendAlong hpos hroom).abs_outflow_le _

/-- An amount that an arc has room for can leave one end of the arc and arrive at the other one, if
the excesses are those of a flow. -/
theorem exists_along (hroomy : Roomy t) {flow : Table Int m} (hwithin : t.Within flow)
    (hexcess : ∀ v, v ≠ t.target → s.excess[v] = -t.outflow flow v) {r : ResidualArc m}
    {amount : Int} (hpos : 0 ≤ amount) (hroom : amount ≤ t.room flow r) :
    ∃ s₁ s₂, addExcess t s (t.toNetwork.source r) (-amount) = .ok s₁ ∧
      addExcess t s₁ (t.toNetwork.target r) amount = .ok s₂ := by
  obtain ⟨s₁, h₁⟩ := exists_addExcess fun hu =>
    fits_of_abs_le ((abs_left_le hwithin hexcess hpos hroom hu).trans (hroomy _ hu))
  obtain ⟨s₂, h₂⟩ := exists_addExcess fun hv =>
    fits_of_abs_le ((abs_arrived_le hwithin hexcess hpos hroom h₁ hv).trans (hroomy _ hv))
  exact ⟨s₁, s₂, h₁, h₂⟩

/-- No push is refused. -/
theorem exists_push (hroomy : Roomy t) (h : Preflow t s) {r : ResidualArc m}
    (hu : t.toNetwork.source r = u) (hpos : 0 ≤ s.excess[u]) : ∃ s', push t s u r = .ok s' := by
  subst hu
  obtain ⟨s₁, s₂, h₁, h₂⟩ := exists_along hroomy h.within h.excess_eq (r := r)
    (le_min hpos (h.within.room_nonneg r)) (min_le_right _ _)
  exact ⟨_, bind_eq_ok.mpr ⟨s₁, h₁, bind_eq_ok.mpr ⟨s₂, h₂, rfl⟩⟩⟩

section Start

variable {done : List (ResidualArc m)}

theorem exists_fill (hroomy : Roomy t) (h : Filling t done s) {r : ResidualArc m}
    (hr : t.toNetwork.source r = t.source) : ∃ s', fill t s r = .ok s' := by
  unfold fill
  simp only
  split
  · exact ⟨s, rfl⟩
  · rename_i hskip
    rw [not_or, not_le] at hskip
    obtain ⟨s₁, s₂, h₁, h₂⟩ := exists_along
      (s := { s with flow := sendAlong s.flow r (t.room s.flow r) }) hroomy h.within h.excess_eq
      hskip.2.le le_rfl
    rw [hr] at h₁
    exact ⟨s₂, bind_eq_ok.mpr ⟨s₁, h₁, h₂⟩⟩

theorem exists_foldlM_fill (hroomy : Roomy t) (h : Filling t done s) {rs : List (ResidualArc m)}
    (hrs : ∀ r ∈ rs, t.toNetwork.source r = t.source) : ∃ s', rs.foldlM (fill t) s = .ok s' := by
  induction rs generalizing s done with
  | nil => exact ⟨s, rfl⟩
  | cons r rs ih =>
      obtain ⟨s₁, h₁⟩ := exists_fill hroomy h (hrs r (by simp))
      obtain ⟨s₂, h₂⟩ := ih (h.fill (hrs r (by simp)) h₁) fun r' hr' => hrs r' (by simp [hr'])
      refine ⟨s₂, ?_⟩
      rw [List.foldlM_cons]
      exact bind_eq_ok.mpr ⟨s₁, h₁, h₂⟩

/-- The arcs out of the source can be filled. -/
theorem exists_start (hroomy : Roomy t) (hrows : t.rows = t.toNetwork.rows)
    (hcap : ∀ a : Fin m, 0 ≤ t.cap[a]) : ∃ s, start t = .ok s :=
  exists_foldlM_fill hroomy (filling_start hcap) fun _ hr => (Network.mem_row hrows).mp hr

end Start

section Run

theorem dischargeStep_ne_error (hroomy : Roomy t) (hrows : t.rows = t.toNetwork.rows)
    (h : Preflow t s) : dischargeStep t u s ≠ .done (.error cause) := by
  intro hstep
  have hcases := dischargeStep_cases t u s
  rw [hstep] at hcases
  cases hcases with
  | refused hpos hr hpush =>
      obtain ⟨s', hok⟩ := exists_push hroomy h (Network.source_of_place hrows hr) hpos.le
      cases hpush.symm.trans hok

theorem discharge_ne_error (hroomy : Roomy t) (hrows : t.rows = t.toNetwork.rows)
    (h : Labelled t s) (hsource : u ≠ t.source) (htarget : u ≠ t.target)
    (hwaits : ∀ v, v ≠ u → Waits t s v) : discharge t fuel s u ≠ .ok (.error cause) := by
  intro hdischarge
  refine iterate_invariant (P := fun s => Labelled t s ∧ ∀ v, v ≠ u → Waits t s v)
    (Q := fun o => o ≠ .error cause) ?_ ?_ ⟨h, hwaits⟩ hdischarge rfl
  · rintro s₁ s₂ ⟨h₁, hwaits₁⟩ hstep
    obtain ⟨h₂, -, hwaits₂⟩ :=
      dischargeStep_next hrows h₁ hsource htarget hwaits₁ (Except.ok.inj hstep)
    exact ⟨h₂, hwaits₂⟩
  · rintro s₁ o ⟨h₁, -⟩ hstep rfl
    exact dischargeStep_ne_error hroomy hrows h₁.toPreflow (Except.ok.inj hstep)

theorem queueStep_ne_error (hroomy : Roomy t) (hrows : t.rows = t.toNetwork.rows)
    (h : Queued t s) : queueStep t fuel s ≠ .ok (.done (.error cause)) := by
  intro hstep
  rcases queueStep_cases hstep with
    ⟨-, ⟨⟩⟩ | ⟨u, rest, _, hactive, hdischarge, ⟨_, rfl, ⟨⟩⟩ | ⟨_, -, ⟨⟩⟩⟩
  obtain ⟨hlabelled, hsource, htarget, hwaits⟩ := h.pop hactive
  exact discharge_ne_error hroomy hrows hlabelled hsource htarget hwaits hdischarge

variable {net : Network n m} {source target : Fin n}

/-- The search is not refused if at every node but the target the capacities add up to an amount. -/
theorem run_ne_error (hne : source ≠ target) (hroomy : Roomy (terminals net source target)) :
    run fuel net source target ≠ .ok (.error cause) := by
  intro h
  have hcap : ∀ a : Fin m, 0 ≤ (terminals net source target).cap[a] :=
    fun a => by simp [terminals, clip]
  obtain ⟨s, hstart⟩ := exists_start hroomy rfl hcap
  rw [run_eq, hstart] at h
  obtain ⟨o, ho, hmap⟩ := map_eq_ok.mp h
  refine iterate_invariant (P := Queued _) (Q := fun o => o.map (·.flow) ≠ .error cause)
    (fun s s' hs hstep => (queueStep_next rfl hs hstep).1) ?_ (queued_start rfl hne hcap hstart)
    ho hmap
  intro s o hs hstep hcause
  cases o with
  | ok s' => cases hcause
  | error cause => exact queueStep_ne_error hroomy rfl hs hstep

end Run

end MaxFlow

namespace Problem

variable {p : Problem n m Int}

/-- The capacities at a node of the larger network, arc of the problem by arc of the problem and
supply by supply. -/
theorem capacityAt_withSupplyArcs (w : Fin (n + 2)) :
    p.withSupplyArcs.capacityAt w =
      ∑ a : Fin m, ((if SupplyArc.inner p.tail[a] = w then p.cap[a] else 0) +
          if SupplyArc.inner p.head[a] = w then p.cap[a] else 0) +
        ∑ v : Fin n, ((SupplyArc.ofSupply v p.supply[v]).map fun arc =>
          (if arc.tail = w then arc.cap else 0) + if arc.head = w then arc.cap else 0).getD 0 := by
  unfold Network.capacityAt
  rw [Fin.sum_univ_add, ← p.sum_supplyArc fun arc =>
    (if arc.tail = w then arc.cap else 0) + if arc.head = w then arc.cap else 0]
  simp only [withSupplyArcs, Table.getElem_append_castAdd, Table.getElem_append_natAdd,
    Table.getElem_map]
  rfl

theorem capacityAt_inner (v : Fin n) :
    p.withSupplyArcs.capacityAt (SupplyArc.inner v) = p.load v := by
  have hterm : ∀ u : Fin n, ((SupplyArc.ofSupply u p.supply[u]).map fun arc =>
      (if arc.tail = SupplyArc.inner v then arc.cap else 0) +
        if arc.head = SupplyArc.inner v then arc.cap else 0).getD 0 =
      if u = v then |p.supply[u]| else 0 := by
    intro u
    unfold SupplyArc.ofSupply
    by_cases hpos : 0 < p.supply[u]
    · simp [hpos, abs_of_pos hpos, (inner_ne_source v).symm, inner_inj]
    · by_cases hneg : p.supply[u] < 0
      · simp [hpos, hneg, abs_of_neg hneg, (inner_ne_sink v).symm, inner_inj]
      · simp [show p.supply[u] = 0 by omega]
  rw [capacityAt_withSupplyArcs, sum_congr rfl fun u _ => hterm u, sum_ite_eq',
    if_pos (mem_univ v), load, add_comm]
  simp only [inner_inj]

theorem capacityAt_source :
    p.withSupplyArcs.capacityAt (SupplyArc.source n) = ∑ v : Fin n, max p.supply[v] 0 := by
  have hterm : ∀ u : Fin n, ((SupplyArc.ofSupply u p.supply[u]).map fun arc =>
      (if arc.tail = SupplyArc.source n then arc.cap else 0) +
        if arc.head = SupplyArc.source n then arc.cap else 0).getD 0 = max p.supply[u] 0 := by
    intro u
    unfold SupplyArc.ofSupply
    split_ifs with hpos hneg
    · simp [inner_ne_source, hpos.le]
    · simp [inner_ne_source, source_ne_sink.symm, hneg.le]
    · simp [not_lt.mp hpos]
  rw [capacityAt_withSupplyArcs, sum_congr rfl fun u _ => hterm u]
  simp [inner_ne_source]

/-- Only the super sink may have to hold more than an amount. -/
theorem roomy_withSupplyArcs (hp : p.Prepared)
    (hdemand : ∑ v : Fin n, max p.supply[v] 0 ≤ Amount.largest) :
    MaxFlow.Roomy
      (MaxFlow.terminals p.withSupplyArcs (SupplyArc.source n) (SupplyArc.sink n)) := by
  intro w hw
  have hcapacity : (MaxFlow.terminals p.withSupplyArcs (SupplyArc.source n)
      (SupplyArc.sink n)).capacityAt w = p.withSupplyArcs.capacityAt w :=
    congrArg (Network.capacityAt · w) (clip_withSupplyArcs hp)
  rw [hcapacity]
  by_cases hsource : w = SupplyArc.source n
  · rw [hsource, capacityAt_source]
    exact hdemand
  · obtain ⟨v, rfl⟩ := eq_inner hsource hw
    rw [capacityAt_inner]
    exact (hp.load_le v).trans (by decide)

/-- A demand that is an amount is counted without refusal. -/
theorem exists_demand (hdemand : ∑ v : Fin n, max p.supply[v] 0 ≤ Amount.largest) :
    ∃ demand, p.demand = .ok demand := by
  refine (exists_foldlM_checked_iff _ _).mpr fun k _ => ?_
  -- the supplies counted so far are part of the demand, for none of those to come is negative
  have hsum := congrArg List.sum (List.take_append_drop (k + 1) (p.supply.toList.filter (0 < ·)))
  rw [List.sum_append, sum_positive] at hsum
  have hpos : ∀ x ∈ p.supply.toList.filter (0 < ·), 0 ≤ x := fun x hx => by
    simpa using (of_decide_eq_true (List.mem_filter.mp hx).2).le
  have htake := List.sum_nonneg fun x hx => hpos x (List.mem_of_mem_take (i := k + 1) hx)
  have hdrop := List.sum_nonneg fun x hx => hpos x (List.mem_of_mem_drop (i := k + 1) hx)
  refine MaxFlow.fits_of_abs_le ?_
  rw [zero_add, abs_of_nonneg htake]
  omega

end Problem

/-- No sum is refused while a feasible flow is looked for, if the demand is an amount. -/
theorem feasibleFlow_ne_refused {p : Problem n m Int} (hp : p.Prepared)
    (hdemand : ∑ v : Fin n, max p.supply[v] 0 ≤ Amount.largest) (fuel : Nat) :
    (feasibleFlow fuel p).RefusesOnly fun _ => False := by
  obtain ⟨demand, hcounted⟩ := Problem.exists_demand hdemand
  refine refusesOnly_feasibleFlow (fun cause h => ?_) fun cause h => ?_
  · rw [hcounted] at h
    cases h
  · exact MaxFlow.run_ne_error Problem.source_ne_sink (Problem.roomy_withSupplyArcs hp hdemand) h

end NetworkFlow
