import NetworkFlow.Proofs.BellmanFord.Walks
import NetworkFlow.Proofs.Walk

/-!
# Arcs without a capacity

A finite problem gives a made-up capacity to the arcs that have none. It is large
enough if it covers all that is supplied and all that the other arcs can carry
(`throughput`): a flow that puts more on such an arc holds a cycle of such arcs,
and as long as none of these cycles has a negative cost, taking a unit off the
cycle makes the flow no dearer. Each time the arcs without a capacity carry less,
so the end is a flow within the made-up capacities.

What reaches the tail of an arc over arcs of that kind (`behind`) is cut off from the
rest, on which the bound rests: all that the arc carries comes out of that set of
nodes, and only supplies and arcs with a capacity bring something in.

## Main results

* `Admits.le_throughput`: without a cycle, no such arc carries more than the throughput.
* `Admits.exists_feasible`: made-up capacities of the throughput cost nothing.
* `Admits.exists_cheaper`: a negative cycle makes the cost sink below every bound.
-/

namespace NetworkFlow.Problem

open Finset BellmanFord Relation

variable {n m : Nat}

/-- The flow meets the supplies and all capacities but the made-up ones. -/
structure Admits (p : Problem n m Int) (flow : Table Int m) : Prop where
  nonneg : ∀ a : Fin m, 0 ≤ flow[a]
  le_cap : ∀ a : Fin m, p.uncapped[a] = false → flow[a] ≤ p.cap[a]
  balanced : ∀ v : Fin n, p.outflow flow v = p.supply[v]

/-- The arcs with their costs. -/
def costedArcs (p : Problem n m Int) : CostedArcs n (Fin m) Int where
  tail a := p.tail[a]
  head a := p.head[a]
  cost a := p.cost[a]

/-- The arcs whose capacity is made up. -/
def freeArcs (p : Problem n m Int) : List (Fin m) := (List.finRange m).filter (p.uncapped[·])

/-- A cycle of arcs without a capacity has a negative cost. -/
def HasFreeCycle (p : Problem n m Int) : Prop :=
  ∃ u cycle, IsWalk p.costedArcs p.freeArcs u u cycle ∧ costSum p.costedArcs cycle < 0

/-- All that is supplied and all that the arcs with a capacity can carry. -/
def throughput (p : Problem n m Int) : Int :=
  ∑ v : Fin n, max p.supply[v] 0 + ∑ a : Fin m, if p.uncapped[a] then 0 else p.cap[a]

variable {p : Problem n m Int} {flow : Table Int m}

theorem mem_freeArcs {a : Fin m} : a ∈ p.freeArcs ↔ p.uncapped[a] = true := by
  simp [freeArcs]

/-- A feasible flow exceeds no capacity, made up or not. -/
theorem Feasible.admits (h : p.Feasible flow) : p.Admits flow :=
  ⟨fun a => (h.within a).1, fun a _ => (h.within a).2, h.balanced⟩

section Along

/-- The residual arcs that raise the flow on the arcs of a list. -/
def along (walk : List (Fin m)) : List (ResidualArc m) := walk.map (⟨·, false⟩)

theorem leads_along {arcs walk : List (Fin m)} {u v : Fin n}
    (h : IsWalk p.costedArcs arcs u v walk) : p.Leads (along walk) u v := by
  induction walk generalizing u with
  | nil =>
      obtain rfl : u = v := h
      exact p.leads_nil u
  | cons a walk ih =>
      obtain ⟨-, rfl, hwalk⟩ := h
      exact Network.Leads.cons (r := ⟨a, false⟩) (ih hwalk)

theorem priceOf_along (cost : Table Int m) (walk : List (Fin m)) :
    priceOf cost (along walk) = (walk.map fun a => cost[a]).sum := by
  rw [priceOf, along, List.map_map]
  rfl

/-- Sending along arcs raises the flow on each by the amount for every time it occurs. -/
theorem getElem_sendAll_along (flow : Table Int m) (walk : List (Fin m)) (amount : Int)
    (a : Fin m) : (sendAll flow (along walk) amount)[a] = flow[a] + amount * walk.count a := by
  have hinj : Function.Injective fun b : Fin m => (⟨b, false⟩ : ResidualArc m) :=
    fun _ _ h => congrArg ResidualArc.arc h
  have hforward : (along walk).count ⟨a, false⟩ = walk.count a :=
    List.count_map_of_injective walk _ hinj a
  have hbackward : (along walk).count ⟨a, true⟩ = 0 := by
    apply List.count_eq_zero_of_not_mem
    simp [along]
  rw [getElem_sendAll, hforward, hbackward]
  simp

end Along

section Cancel

/-- The arcs without a capacity that carry something. -/
def usedArcs (p : Problem n m Int) (flow : Table Int m) : List (Fin m) :=
  p.freeArcs.filter (0 < flow[·])

theorem mem_usedArcs {a : Fin m} : a ∈ p.usedArcs flow ↔ p.uncapped[a] = true ∧ 0 < flow[a] := by
  simp [usedArcs, mem_freeArcs]

theorem isWalk_of_used {u v : Fin n} {walk : List (Fin m)}
    (h : IsWalk p.costedArcs (p.usedArcs flow) u v walk) :
    IsWalk p.costedArcs p.freeArcs u v walk := by
  induction walk generalizing u with
  | nil => exact h
  | cons a walk ih => exact ⟨(List.mem_filter.mp h.1).1, h.2.1, ih h.2.2⟩

/-- A unit is taken off a cycle of arcs without a capacity that carry something. -/
theorem Admits.cancel (h : p.Admits flow) {u : Fin n} {cycle : List (Fin m)}
    (hcycle : IsWalk p.costedArcs (p.usedArcs flow) u u cycle) (hnodup : cycle.Nodup) :
    p.Admits (sendAll flow (along cycle) (-1)) := by
  have hcount : ∀ a, (cycle.count a : Int) = if a ∈ cycle then 1 else 0 := by
    intro a
    rw [hnodup.count]
    split <;> rfl
  refine ⟨fun a => ?_, fun a hcap => ?_, fun v => ?_⟩
  · have hnonneg := h.nonneg a
    rw [getElem_sendAll_along, hcount]
    split
    · have := (mem_usedArcs.mp (hcycle.mem a ‹_›)).2
      omega
    · omega
  · have hle := h.le_cap a hcap
    rw [getElem_sendAll_along, hcount]
    split <;> omega
  · rw [Network.outflow_sendAll_cycle (leads_along hcycle), h.balanced]

/-- One for every arc without a capacity. -/
def freeUnits (p : Problem n m Int) : Table Int m := .ofFn fun a => if p.uncapped[a] then 1 else 0

/-- What the arcs without a capacity carry. -/
def freeFlow (p : Problem n m Int) (flow : Table Int m) : Int := costOf p.freeUnits flow

theorem Admits.freeFlow_nonneg (h : p.Admits flow) : 0 ≤ p.freeFlow flow := by
  unfold freeFlow costOf
  refine sum_nonneg fun a _ => ?_
  rw [freeUnits, Table.getElem_ofFn]
  have := h.nonneg a
  split <;> omega

theorem freeFlow_cancel {u v : Fin n} {walk : List (Fin m)}
    (hwalk : IsWalk p.costedArcs (p.usedArcs flow) u v walk) (amount : Int) :
    p.freeFlow (sendAll flow (along walk) amount) = p.freeFlow flow + amount * walk.length := by
  have hone : walk.map (fun a => p.freeUnits[a]) = walk.map fun _ => 1 := by
    apply List.map_congr_left
    intro a ha
    rw [freeUnits, Table.getElem_ofFn, if_pos (mem_usedArcs.mp (hwalk.mem a ha)).1]
  rw [freeFlow, costOf_sendAll, priceOf_along, hone, List.map_const', List.sum_replicate]
  simp [freeFlow]

end Cancel

/-- The arcs with a capacity can carry what they carry. -/
theorem Admits.throughput_nonneg (h : p.Admits flow) : 0 ≤ p.throughput := by
  refine add_nonneg (sum_nonneg fun v _ => le_max_right _ _) (sum_nonneg fun a _ => ?_)
  split
  · exact le_rfl
  · have h₁ := h.nonneg a
    have h₂ := h.le_cap a (Bool.eq_false_iff.mpr ‹_›)
    omega

section Behind

/-- Some arc without a capacity carries something from the one node to the other. -/
def UsedStep (p : Problem n m Int) (flow : Table Int m) (u v : Fin n) : Prop :=
  ∃ b ∈ p.usedArcs flow, p.costedArcs.tail b = u ∧ p.costedArcs.head b = v

open Classical in
/-- The nodes from which such arcs lead to the tail of an arc. -/
noncomputable def behind (p : Problem n m Int) (flow : Table Int m) (a : Fin m) : Finset (Fin n) :=
  {u | ReflTransGen (p.UsedStep flow) u p.tail[a]}

variable {a b : Fin m}

theorem mem_behind {u : Fin n} :
    u ∈ p.behind flow a ↔ ReflTransGen (p.UsedStep flow) u p.tail[a] := by
  simp [behind]

theorem tail_mem_behind : p.tail[a] ∈ p.behind flow a := mem_behind.mpr ReflTransGen.refl

/-- An arc that carries something and begins where its head is behind it would close a cycle. -/
theorem head_notMem_behind
    (hno : ∀ u cycle, cycle ≠ [] → ¬ IsWalk p.costedArcs (p.usedArcs flow) u u cycle)
    (ha : a ∈ p.usedArcs flow) : p.head[a] ∉ p.behind flow a := by
  intro hmem
  obtain ⟨walk, hwalk⟩ := exists_isWalk (mem_behind.mp hmem)
  exact hno p.tail[a] (a :: walk) (by simp) ⟨ha, rfl, hwalk⟩

/-- An arc without a capacity that carries something and ends in the set begins in it. -/
theorem tail_mem_behind_of_used (hb : b ∈ p.usedArcs flow) (hhead : p.head[b] ∈ p.behind flow a) :
    p.tail[b] ∈ p.behind flow a :=
  mem_behind.mpr ((mem_behind.mp hhead).head ⟨b, hb, rfl, rfl⟩)

/-- Only arcs with a capacity bring something into the set, and no more than that capacity. -/
theorem Admits.le_outflow_behind (h : p.Admits flow) (b : Fin m) :
    -(if p.uncapped[b] then 0 else p.cap[b]) ≤
      ((if p.tail[b] ∈ p.behind flow a then 1 else 0) -
        if p.head[b] ∈ p.behind flow a then 1 else 0) * flow[b] := by
  have hnonneg := h.nonneg b
  cases hb : p.uncapped[b] with
  | false =>
      have hle := h.le_cap b hb
      simp only [Bool.false_eq_true, if_false]
      split_ifs <;> omega
  | true =>
      by_cases hused : 0 < flow[b]
      · have hin := tail_mem_behind_of_used (a := a) (mem_usedArcs.mpr ⟨hb, hused⟩)
        by_cases hhead : p.head[b] ∈ p.behind flow a
        · simp [hhead, hin hhead]
        · simp only [hhead, if_true, if_false]
          split_ifs <;> omega
      · have hzero : flow[b] = 0 := by omega
        simp [hzero]

/-- What an arc carries leaves the nodes behind it, so they send it out, less what arcs with a
capacity bring them. -/
theorem Admits.le_sum_outflow_behind (h : p.Admits flow) (hhead : p.head[a] ∉ p.behind flow a)
    (ha : p.uncapped[a] = true) :
    flow[a] - ∑ b : Fin m, (if p.uncapped[b] then 0 else p.cap[b]) ≤
      ∑ v ∈ p.behind flow a, p.outflow flow v := by
  have hterm : ∀ b : Fin m,
      (if b = a then flow[a] else 0) - (if p.uncapped[b] then 0 else p.cap[b]) ≤
        ((if p.tail[b] ∈ p.behind flow a then 1 else 0) -
          if p.head[b] ∈ p.behind flow a then 1 else 0) * flow[b] := by
    intro b
    by_cases hba : b = a
    · subst hba
      simp [tail_mem_behind, hhead, ha]
    · have hle := h.le_outflow_behind (a := a) b
      rwa [if_neg hba, zero_sub]
  have hsum := sum_le_sum fun b (_ : b ∈ univ) => hterm b
  rwa [sum_sub_distrib, sum_ite_eq' univ a, if_pos (mem_univ a), ← p.sum_outflow_mem] at hsum

end Behind

/-- If no cycle of arcs without a capacity carries anything, none of these arcs carries more than
the throughput. -/
theorem Admits.le_throughput (h : p.Admits flow)
    (hno : ∀ u cycle, cycle ≠ [] → ¬ IsWalk p.costedArcs (p.usedArcs flow) u u cycle)
    {a : Fin m} (ha : p.uncapped[a] = true) : flow[a] ≤ p.throughput := by
  by_cases hpos : 0 < flow[a]
  · have hout := h.le_sum_outflow_behind (head_notMem_behind hno (mem_usedArcs.mpr ⟨ha, hpos⟩)) ha
    rw [sum_congr rfl fun v _ => h.balanced v] at hout
    have hsupply : ∑ v ∈ p.behind flow a, p.supply[v] ≤ ∑ v : Fin n, max p.supply[v] 0 :=
      (sum_le_sum fun v _ => le_max_left _ _).trans
        (sum_le_sum_of_subset_of_nonneg (subset_univ _) fun v _ _ => le_max_right _ _)
    unfold throughput
    omega
  · have := h.throughput_nonneg
    omega

/-- If no cycle of arcs without a capacity has a negative cost, a flow needs no more than the
throughput on any of these arcs, and costs no more then. -/
theorem Admits.exists_feasible (h : p.Admits flow)
    (hroomy : ∀ a : Fin m, p.uncapped[a] = true → p.throughput ≤ p.cap[a])
    (hcycle : ¬ p.HasFreeCycle) :
    ∃ flow', p.Feasible flow' ∧ p.totalCost flow' ≤ p.totalCost flow := by
  induction hk : (p.freeFlow flow).toNat using Nat.strong_induction_on generalizing flow with
  | _ k ih =>
    subst hk
    by_cases hused : ∃ u cycle, cycle ≠ [] ∧ IsWalk p.costedArcs (p.usedArcs flow) u u cycle
    · obtain ⟨u, cycle, hne, hnodup, hwalk⟩ : ∃ u cycle, cycle ≠ [] ∧ cycle.Nodup ∧
          IsWalk p.costedArcs (p.usedArcs flow) u u cycle := by
        obtain ⟨u, cycle, hne, hwalk⟩ := hused
        rcases hwalk.nodup_or_exists_cycle with hnodup | hinner
        · exact ⟨u, cycle, hne, hnodup, hwalk⟩
        · exact hinner
      have hadmits := h.cancel hwalk hnodup
      have hless := freeFlow_cancel hwalk (-1)
      have hpos : 0 < cycle.length := List.length_pos_iff.mpr hne
      have hnonneg := h.freeFlow_nonneg
      have hnonneg' := hadmits.freeFlow_nonneg
      obtain ⟨flow', hfeasible, hle⟩ := ih _ (by omega) hadmits rfl
      refine ⟨flow', hfeasible, hle.trans ?_⟩
      have hprice : 0 ≤ costSum p.costedArcs cycle := by
        by_contra hneg
        exact hcycle ⟨u, cycle, isWalk_of_used hwalk, not_le.mp hneg⟩
      unfold totalCost
      rw [costOf_sendAll, priceOf_along]
      change 0 ≤ (cycle.map fun a => p.cost[a]).sum at hprice
      omega
    · refine ⟨flow, ⟨fun a => ⟨h.nonneg a, ?_⟩, h.balanced⟩, le_rfl⟩
      cases ha : p.uncapped[a] with
      | false => exact h.le_cap a ha
      | true =>
          refine le_trans (h.le_throughput (fun u cycle hne hwalk => ?_) ha) (hroomy a ha)
          exact hused ⟨u, cycle, hne, hwalk⟩

/-- More and more around a negative cycle of arcs without a capacity costs less and less. -/
theorem Admits.exists_cheaper (h : p.Admits flow) (hcycle : p.HasFreeCycle) (bound : Int) :
    ∃ flow', p.Admits flow' ∧ p.totalCost flow' < bound := by
  obtain ⟨u, cycle, hwalk, hneg⟩ := hcycle
  let amount : Nat := (p.totalCost flow - bound).toNat + 1
  refine ⟨sendAll flow (along cycle) amount, ⟨fun a => ?_, fun a ha => ?_, fun v => ?_⟩, ?_⟩
  · rw [getElem_sendAll_along]
    have h₁ := h.nonneg a
    have h₂ : (0 : Int) ≤ amount * cycle.count a := by positivity
    omega
  · have hnotMem : a ∉ cycle := by
      intro hmem
      rw [mem_freeArcs.mp (hwalk.mem a hmem)] at ha
      cases ha
    rw [getElem_sendAll_along, List.count_eq_zero_of_not_mem hnotMem]
    simpa using h.le_cap a ha
  · rw [Network.outflow_sendAll_cycle (leads_along hwalk), h.balanced]
  · have hprice : priceOf p.cost (along cycle) ≤ -1 := by
      rw [priceOf_along]
      change (cycle.map fun a => p.cost[a]).sum < 0 at hneg
      omega
    have hamount : p.totalCost flow - bound < amount := by
      simp only [amount]
      omega
    unfold totalCost at hamount ⊢
    rw [costOf_sendAll]
    nlinarith

end NetworkFlow.Problem
