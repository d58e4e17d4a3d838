import NetworkFlow.Proofs.MaxFlow.Maximal
import NetworkFlow.Proofs.Prepared

/-!
# Feasible flows by maximum flows

Supply arcs lead from a super source to the nodes that supply something and from the
nodes that demand something to a super sink. A flow of the larger network that fills
all supply arcs, and only that, is a feasible flow of the problem on the arcs it began
with. A maximum flow fills them as soon as it carries all of the demand; and if it
carries less, the cut that it fills is too narrow for every flow.

## Main results

* `feasible_of_demand_le`, `not_feasible_of_lt_demand`: what the value of a maximum flow
  says about the problem.
* `feasibleFlow_spec`: `feasibleFlow` finds a feasible flow if there is one.
-/

namespace NetworkFlow

open Finset

variable {n m : Nat} (p : Problem n m Int)

namespace Problem

/-- The number of supply arcs. -/
abbrev supplyCount : Nat := (SupplyArc.ofSupplies p.supply).size

/-- The supply arcs. -/
def supplyArc (i : Fin p.supplyCount) : SupplyArc n :=
  (Table.ofArray (SupplyArc.ofSupplies p.supply))[i]

/-- What a flow of the larger network carries on the arcs of the problem. -/
def ownFlow (flow : Table Int (m + p.supplyCount)) : Table Int m :=
  .ofFn fun a => flow[Fin.castAdd p.supplyCount a]

theorem inner_inj {u v : Fin n} : SupplyArc.inner u = SupplyArc.inner v ↔ u = v := by
  simp [SupplyArc.inner, Fin.ext_iff]

theorem inner_ne_source (v : Fin n) : SupplyArc.inner v ≠ SupplyArc.source n := by
  simp only [SupplyArc.inner, SupplyArc.source, ne_eq, Fin.mk.injEq]
  omega

theorem inner_ne_sink (v : Fin n) : SupplyArc.inner v ≠ SupplyArc.sink n := by
  simp only [SupplyArc.inner, SupplyArc.sink, ne_eq, Fin.mk.injEq]
  omega

theorem source_ne_sink : SupplyArc.source n ≠ SupplyArc.sink n := by
  simp only [SupplyArc.sink, SupplyArc.source, ne_eq, Fin.mk.injEq]
  omega

/-- A sum over the supply arcs is one over the nodes with a supply. -/
theorem sum_supplyArc (f : SupplyArc n → Int) :
    ∑ i, f (p.supplyArc i) =
      ∑ v : Fin n, ((SupplyArc.ofSupply v p.supply[v]).map f).getD 0 := by
  have hlist : ∀ nodes : List (Fin n),
      ((nodes.filterMap fun v => SupplyArc.ofSupply v p.supply[v]).map f).sum =
        (nodes.map fun v => ((SupplyArc.ofSupply v p.supply[v]).map f).getD 0).sum := by
    intro nodes
    induction nodes with
    | nil => rfl
    | cons v nodes ih =>
        rw [List.map_cons, List.sum_cons, ← ih]
        cases h : SupplyArc.ofSupply v p.supply[v] with
        | none => simp [h]
        | some arc => simp [h]
  have harcs : ∑ i, f (p.supplyArc i) = ((SupplyArc.ofSupplies p.supply).toList.map f).sum :=
    Fin.sum_univ_fun_getElem (SupplyArc.ofSupplies p.supply).toList f
  rw [harcs, SupplyArc.ofSupplies, hlist, ← Fin.sum_univ_def]

/-- What a supply arc is. -/
theorem supplyArc_spec (i : Fin p.supplyCount) :
    0 ≤ (p.supplyArc i).cap ∧ ∃ v : Fin n,
      ((p.supplyArc i).tail = SupplyArc.source n ∧ (p.supplyArc i).head = SupplyArc.inner v) ∨
        ((p.supplyArc i).tail = SupplyArc.inner v ∧
          (p.supplyArc i).head = SupplyArc.sink n) := by
  have hmem : p.supplyArc i ∈ (SupplyArc.ofSupplies p.supply).toList := by
    have hlt : i.val < (SupplyArc.ofSupplies p.supply).toList.length := i.isLt
    exact List.getElem_mem hlt
  obtain ⟨v, -, hv⟩ : ∃ v, v ∈ List.finRange n ∧
      SupplyArc.ofSupply v p.supply[v] = some (p.supplyArc i) := by
    simpa [SupplyArc.ofSupplies] using hmem
  generalize p.supplyArc i = arc at hv ⊢
  unfold SupplyArc.ofSupply at hv
  split at hv
  · rename_i hpos
    cases hv
    exact ⟨hpos.le, v, Or.inl ⟨rfl, rfl⟩⟩
  · split at hv
    · rename_i hneg
      cases hv
      refine ⟨?_, v, Or.inr ⟨rfl, rfl⟩⟩
      show 0 ≤ -p.supply[v]
      omega
    · cases hv

section Outflow

variable (flow : Table Int (m + p.supplyCount))

/-- What a flow of the larger network takes out of a node, arc of the problem by arc of the
problem and supply arc by supply arc. -/
theorem outflow_withSupplyArcs (w : Fin (n + 2)) :
    p.withSupplyArcs.outflow flow w =
      ∑ a : Fin m, ((if SupplyArc.inner p.tail[a] = w then (p.ownFlow flow)[a] else 0) -
          if SupplyArc.inner p.head[a] = w then (p.ownFlow flow)[a] else 0) +
        ∑ i, ((if (p.supplyArc i).tail = w then flow[Fin.natAdd m i] else 0) -
          if (p.supplyArc i).head = w then flow[Fin.natAdd m i] else 0) := by
  unfold Network.outflow
  rw [Fin.sum_univ_add]
  simp only [withSupplyArcs, ownFlow, Table.getElem_append_castAdd, Table.getElem_append_natAdd,
    Table.getElem_map, Table.getElem_ofFn]
  rfl

theorem outflow_source : p.withSupplyArcs.outflow flow (SupplyArc.source n) =
    ∑ i, if (p.supplyArc i).tail = SupplyArc.source n then flow[Fin.natAdd m i] else 0 := by
  rw [outflow_withSupplyArcs]
  simp only [inner_ne_source, if_false, sub_self, sum_const_zero, zero_add]
  apply sum_congr rfl
  intro i _
  obtain ⟨-, v, ⟨-, hhead⟩ | ⟨-, hhead⟩⟩ := p.supplyArc_spec i
  · simp [hhead, inner_ne_source]
  · simp [hhead, source_ne_sink.symm]

theorem outflow_sink : p.withSupplyArcs.outflow flow (SupplyArc.sink n) =
    -∑ i, if (p.supplyArc i).head = SupplyArc.sink n then flow[Fin.natAdd m i] else 0 := by
  rw [outflow_withSupplyArcs, ← sum_neg_distrib]
  simp only [inner_ne_sink, if_false, sub_self, sum_const_zero, zero_add]
  apply sum_congr rfl
  intro i _
  obtain ⟨-, v, ⟨htail, -⟩ | ⟨htail, -⟩⟩ := p.supplyArc_spec i
  · simp [htail, source_ne_sink]
  · simp [htail, inner_ne_sink]

/-- Every supply arc touches either the super source or the super sink. -/
theorem sum_supplyArc_flow : ∑ i : Fin p.supplyCount, flow[Fin.natAdd m i] =
    p.withSupplyArcs.outflow flow (SupplyArc.source n) -
      p.withSupplyArcs.outflow flow (SupplyArc.sink n) := by
  rw [outflow_source, outflow_sink, sub_neg_eq_add, ← sum_add_distrib]
  apply sum_congr rfl
  intro i _
  obtain ⟨-, v, ⟨htail, hhead⟩ | ⟨htail, hhead⟩⟩ := p.supplyArc_spec i
  · simp [htail, hhead, inner_ne_sink]
  · simp [htail, hhead, inner_ne_source]

/-- If the supply arcs are full, they bring every node its supply. -/
theorem outflow_inner (hfull : ∀ i, flow[Fin.natAdd m i] = (p.supplyArc i).cap) (v : Fin n) :
    p.withSupplyArcs.outflow flow (SupplyArc.inner v) =
      p.outflow (p.ownFlow flow) v - p.supply[v] := by
  rw [outflow_withSupplyArcs]
  simp only [inner_inj, hfull]
  rw [p.sum_supplyArc fun arc => (if arc.tail = SupplyArc.inner v then arc.cap else 0) -
    if arc.head = SupplyArc.inner v then arc.cap else 0]
  have hterm : ∀ u : Fin n, ((SupplyArc.ofSupply u p.supply[u]).map fun arc =>
      (if arc.tail = SupplyArc.inner v then arc.cap else 0) -
        if arc.head = SupplyArc.inner v then arc.cap else 0).getD 0 =
      if u = v then -p.supply[u] else 0 := by
    intro u
    unfold SupplyArc.ofSupply
    by_cases hpos : 0 < p.supply[u]
    · by_cases huv : u = v
      · subst huv
        simp [hpos, (inner_ne_source u).symm]
      · simp [hpos, inner_inj, (inner_ne_source v).symm, huv]
    · by_cases hneg : p.supply[u] < 0
      · simp [hpos, hneg, inner_inj, (inner_ne_sink v).symm]
      · simp only [hpos, hneg, if_false, Option.map_none, Option.getD_none]
        split
        · omega
        · rfl
  rw [sum_congr rfl fun u _ => hterm u, sum_ite_eq']
  simp only [mem_univ, if_true]
  rw [Network.outflow]
  ring

end Outflow

section Demand

/-- The sum of the positive supplies. -/
theorem demand_eq {demand : Int} (h : p.demand = .ok demand) :
    demand = ∑ v : Fin n, max p.supply[v] 0 := by
  rw [sum_of_foldlM_checked h, sum_positive, zero_add]

theorem demand_error {cause : Error} (h : p.demand = .error cause) :
    cause = .arithmeticOverflow := by
  obtain ⟨x, -, sum, hx⟩ := exists_error_of_foldlM h
  exact Amount.checked_eq_error hx

/-- What the supply arcs can carry. -/
theorem sum_cap_supplyArc (hp : p.Prepared) :
    ∑ i, (p.supplyArc i).cap = 2 * ∑ v : Fin n, max p.supply[v] 0 := by
  rw [p.sum_supplyArc (·.cap)]
  have hterm : ∀ v : Fin n, ((SupplyArc.ofSupply v p.supply[v]).map (·.cap)).getD 0 =
      2 * max p.supply[v] 0 - p.supply[v] := by
    intro v
    unfold SupplyArc.ofSupply
    split_ifs with hpos hneg
    · simp only [Option.map_some, Option.getD_some]
      omega
    · simp only [Option.map_some, Option.getD_some]
      omega
    · simp only [Option.map_none, Option.getD_none]
      omega
  rw [sum_congr rfl fun v _ => hterm v, sum_sub_distrib, hp.sum_supply, mul_sum, sub_zero]

theorem suppliedBy_eq (flow : Table Int (m + p.supplyCount)) :
    p.suppliedBy flow = p.withSupplyArcs.outflow flow (SupplyArc.source n) := by
  rw [outflow_source, Fin.sum_univ_def]
  rfl

end Demand

section Value

variable {p} {flow : Table Int (m + p.supplyCount)}

theorem eq_inner {w : Fin (n + 2)} (hsource : w ≠ SupplyArc.source n)
    (hsink : w ≠ SupplyArc.sink n) : ∃ v, w = SupplyArc.inner v := by
  simp only [SupplyArc.source, SupplyArc.sink, ne_eq, Fin.ext_iff] at hsource hsink
  exact ⟨⟨w, by omega⟩, rfl⟩

/-- No capacity of the larger network is below zero. -/
theorem clip_withSupplyArcs (hp : p.Prepared) :
    MaxFlow.clip p.withSupplyArcs = p.withSupplyArcs := by
  have hcap : p.withSupplyArcs.cap.map (max · 0) = p.withSupplyArcs.cap := by
    apply Table.ext
    intro a
    rw [Table.getElem_map]
    apply max_eq_left
    induction a using Fin.addCases with
    | left a =>
        have := hp.cap_nonneg a
        simpa [withSupplyArcs] using this
    | right i =>
        have := (p.supplyArc_spec i).1
        simpa [withSupplyArcs, supplyArc] using this
  rw [MaxFlow.clip, hcap]

/-- A flow that carries all of the demand is feasible. -/
theorem feasible_of_demand_le (hp : p.Prepared)
    (h : MaxFlow.Maximal p.withSupplyArcs (SupplyArc.source n) (SupplyArc.sink n) flow)
    (hvalue : ∑ v : Fin n, max p.supply[v] 0 ≤ p.suppliedBy flow) :
    p.Feasible (p.ownFlow flow) := by
  have hinner : ∀ v, p.withSupplyArcs.outflow flow (SupplyArc.inner v) = 0 :=
    fun v => h.balanced _ (inner_ne_source v) (inner_ne_sink v)
  have hle : ∀ i, flow[Fin.natAdd m i] ≤ (p.supplyArc i).cap := by
    intro i
    simpa [withSupplyArcs, supplyArc] using (h.within (Fin.natAdd m i)).2
  have htotal : ∑ i : Fin p.supplyCount, flow[Fin.natAdd m i] =
      ∑ i, (p.supplyArc i).cap := by
    refine le_antisymm (sum_le_sum fun i _ => hle i) ?_
    rw [p.sum_cap_supplyArc hp, p.sum_supplyArc_flow,
      MaxFlow.outflow_target_eq source_ne_sink h.balanced, ← p.suppliedBy_eq]
    omega
  have hfull : ∀ i, flow[Fin.natAdd m i] = (p.supplyArc i).cap :=
    fun i => (sum_eq_sum_iff_of_le fun i _ => hle i).mp htotal i (mem_univ i)
  refine ⟨fun a => ?_, fun v => ?_⟩
  · have := h.within (Fin.castAdd p.supplyCount a)
    simpa [withSupplyArcs, ownFlow] using this
  · have := p.outflow_inner flow hfull v
    rw [hinner] at this
    omega

/-- If a maximum flow carries less than the demand, no flow is feasible. -/
theorem not_feasible_of_lt_demand (hp : p.Prepared)
    (h : MaxFlow.Maximal p.withSupplyArcs (SupplyArc.source n) (SupplyArc.sink n) flow)
    (hvalue : p.suppliedBy flow < ∑ v : Fin n, max p.supply[v] 0) :
    ¬ ∃ flow, p.Feasible flow := by
  rintro ⟨other, hother⟩
  obtain ⟨nodes, hsource, hsink, hclosed⟩ := h.cut
  -- the feasible flow with full supply arcs carries all of the demand over the cut
  obtain ⟨full, hown, hfull⟩ : ∃ full : Table Int (m + p.supplyCount),
      p.ownFlow full = other ∧ ∀ i, full[Fin.natAdd m i] = (p.supplyArc i).cap := by
    refine ⟨other ++ Table.ofFn fun i => (p.supplyArc i).cap, ?_, fun i => by simp⟩
    apply Table.ext
    intro a
    simp [ownFlow]
  have hinner : ∀ v, p.withSupplyArcs.outflow full (SupplyArc.inner v) = 0 := by
    intro v
    rw [p.outflow_inner full hfull, hown, hother.balanced]
    omega
  have hbalanced : ∀ v, v ≠ SupplyArc.source n → v ≠ SupplyArc.sink n →
      p.withSupplyArcs.outflow full v = 0 := by
    intro w hw hw'
    obtain ⟨v, rfl⟩ := eq_inner hw hw'
    exact hinner v
  have hwithin : p.withSupplyArcs.Within full := by
    intro a
    induction a using Fin.addCases with
    | left a =>
        have := hother.within a
        rw [← hown] at this
        simpa [withSupplyArcs, ownFlow] using this
    | right i =>
        have := (p.supplyArc_spec i).1
        rw [hfull]
        simpa [withSupplyArcs, supplyArc] using this
  have hdemand : p.withSupplyArcs.outflow full (SupplyArc.source n) =
      ∑ v : Fin n, max p.supply[v] 0 := by
    have hsum := p.sum_supplyArc_flow full
    rw [sum_congr rfl fun i _ => hfull i, p.sum_cap_supplyArc hp,
      MaxFlow.outflow_target_eq source_ne_sink hbalanced] at hsum
    omega
  have hcut := p.withSupplyArcs.sum_outflow_le_of_closed hclosed hwithin
  rw [MaxFlow.sum_outflow_cut hbalanced hsource hsink,
    MaxFlow.sum_outflow_cut h.balanced hsource hsink, hdemand, ← p.suppliedBy_eq] at hcut
  omega

end Value

end Problem

variable {p} {fuel : Nat}

/-- The search for a feasible flow ends. -/
theorem ends_feasibleFlow (p : Problem n m Int) : Logged.Ends fun fuel => feasibleFlow fuel p := by
  apply (Logged.ends_ofExcept p.demand).bind
  intro _ demand _
  refine (Logged.ends_ofRun (fun _ _ => MaxFlow.run_mono)
    (MaxFlow.exists_run p.withSupplyArcs Problem.source_ne_sink)).bind fun _ result _ => ?_
  refine (Logged.ends_ofExcept result).bind fun _ flow _ => Logged.ends_const fun why => ?_
  rw [Logged.outcome_bind]
  split <;> simp [Except.bind]

/-- Only the count of the demand and the search for a flow can be refused. -/
theorem refusesOnly_feasibleFlow {p : Problem n m Int} {causes : Error → Prop}
    (hdemand : ∀ cause, p.demand = .error cause → causes cause)
    (hrun : ∀ cause, MaxFlow.run fuel p.withSupplyArcs (SupplyArc.source n) (SupplyArc.sink n) =
      .ok (.error cause) → causes cause) : (feasibleFlow fuel p).RefusesOnly causes := by
  refine (Logged.refusesOnly_ofExcept hdemand).bind fun demand _ => ?_
  refine (Logged.refusesOnly_ofRun _).bind fun result hresult => ?_
  refine (Logged.refusesOnly_ofExcept fun cause hcause => ?_).bind fun flow _ => ?_
  · have hcause : result = .error cause := hcause
    rw [hcause] at hresult
    exact hrun cause (Logged.outcome_ofRun_eq_ok.mp hresult)
  · refine (Logged.refusesOnly_of_ok rfl).bind fun _ _ => ?_
    split <;> exact Logged.refusesOnly_of_ok rfl

/-- The search for a feasible flow computes with checked amounts. -/
theorem noOverflow_feasibleFlow {α : Type} (p : Problem n m α) :
    (feasibleFlow fuel p).NoOverflow := by
  refine (Logged.noOverflow_ofExcept _).bind fun demand _ => ?_
  refine (Logged.noOverflow_ofRun MaxFlow.run_ne_overflow).bind fun result _ => ?_
  refine (Logged.noOverflow_ofExcept _).bind fun flow _ => ?_
  refine (Logged.noOverflow_of_ok rfl).bind fun _ _ => ?_
  split <;> exact Logged.noOverflow_of_ok rfl

/-- A feasible flow is found if there is one. -/
theorem feasibleFlow_spec (hp : p.Prepared) {o : Option (Table Int m)}
    (h : (feasibleFlow fuel p).outcome = .ok o) :
    (∃ flow, o = some flow ∧ p.Feasible flow) ∨ (o = none ∧ ¬ ∃ flow, p.Feasible flow) := by
  unfold feasibleFlow at h
  obtain ⟨demand, hdemand, h⟩ := Logged.outcome_bind_eq_ok.mp h
  obtain ⟨result, hresult, h⟩ := Logged.outcome_bind_eq_ok.mp h
  obtain ⟨flow, hflow, h⟩ := Logged.outcome_bind_eq_ok.mp h
  obtain ⟨-, -, h⟩ := Logged.outcome_bind_eq_ok.mp h
  have hdemand := p.demand_eq (Logged.outcome_ofExcept_eq_ok.mp hdemand)
  have hresult := Logged.outcome_ofRun_eq_ok.mp hresult
  have hflow : result = .ok flow := Logged.outcome_ofExcept_eq_ok.mp hflow
  rw [hflow] at hresult
  have hmax := MaxFlow.run_ok Problem.source_ne_sink hresult
  rw [Problem.clip_withSupplyArcs hp] at hmax
  split at h
  · rename_i hless
    cases h
    rw [hdemand] at hless
    exact Or.inr ⟨rfl, Problem.not_feasible_of_lt_demand hp hmax hless⟩
  · rename_i hmeets
    cases h
    rw [hdemand, not_lt] at hmeets
    exact Or.inl ⟨_, rfl, Problem.feasible_of_demand_le hp hmax hmeets⟩

end NetworkFlow
