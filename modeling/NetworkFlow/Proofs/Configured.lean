import NetworkFlow.Proofs.Prepared
import NetworkFlow.Proofs.Uncapped

/-!
# Flows of a configured problem

What a caller asks for is said here without the finite problem: a flow meets the
configured bounds and supplies, it is optimal if none that meets them costs less.

The finite problem is about what a flow carries above the lower bounds. The two
problems have the same flows, except that the finite one limits the arcs without
an upper bound; the limit is all that is supplied and all that the other arcs can
carry, so whenever some flow meets the configured problem, one does within it.

## Main results

* `not_meets_of_prepare`: if `prepare` returns nothing, no flow meets bounds and supplies.
* `admits_iff_meets`: the flows of the finite problem are those of the configured
  one without their lower bounds.
* `exists_feasible_iff`: one has a feasible flow if the other one has.
-/

namespace NetworkFlow

open Finset

namespace Configuration

variable {w : Width} {α : Type} (c : Configuration w α)

/-- What has to leave a node in excess of what enters it. -/
def supplyAt (v : Fin c.nodes) : Int :=
  match c.supply with
  | .zero => 0
  | .map map => Amount.ofWord (map.valueAt v)
  | .single source target amount =>
      (if source = v then Amount.ofWord amount else 0) -
        if target = v then Amount.ofWord amount else 0

/-- What a flow takes out of a node in excess of what it brings in. -/
def outflow (flow : Table Int c.arcs) (v : Fin c.nodes) : Int :=
  ∑ a : Fin c.arcs, ((if c.graph.tail a = v then flow[a] else 0) -
    if c.graph.head a = v then flow[a] else 0)

/-- The flow stays within the bounds and meets the supply of every node. -/
structure Meets (flow : Table Int c.arcs) : Prop where
  lower_le : ∀ a : Fin c.arcs, c.lowerAt a ≤ flow[a]
  le_upper : ∀ (a : Fin c.arcs) upper, c.upperAt a = some upper → flow[a] ≤ upper
  balanced : ∀ v, c.outflow flow v = c.supplyAt v

/-- The lower bounds as a flow. -/
def lowerFlow : Table Int c.arcs := .ofFn c.lowerAt

/-- A flow with the lower bounds added to it. -/
def raise (flow : Table Int c.arcs) : Table Int c.arcs := .ofFn fun a => flow[a] + c.lowerAt a

/-- What a flow carries above the lower bounds. -/
def excess (flow : Table Int c.arcs) : Table Int c.arcs := .ofFn fun a => flow[a] - c.lowerAt a

@[simp] theorem getElem_raise (flow : Table Int c.arcs) (a : Fin c.arcs) :
    (c.raise flow)[a] = flow[a] + c.lowerAt a := by
  simp [raise]

@[simp] theorem raise_excess (flow : Table Int c.arcs) : c.raise (c.excess flow) = flow := by
  apply Table.ext
  simp [raise, excess]

theorem outflow_raise (flow : Table Int c.arcs) (v : Fin c.nodes) :
    c.outflow (c.raise flow) v = c.outflow flow v + c.outflow c.lowerFlow v := by
  simp only [outflow, ← sum_add_distrib]
  apply sum_congr rfl
  intro a _
  rw [getElem_raise, lowerFlow, Table.getElem_ofFn]
  split_ifs <;> ring

section Shift

variable {c} {supply shifted : Table Int c.nodes}

theorem supplies_eq (h : c.supplies = .ok supply) (v : Fin c.nodes) :
    supply[v] = c.supplyAt v := by
  unfold supplies at h
  unfold supplyAt
  cases hsupply : c.supply with
  | zero =>
      simp only [hsupply] at h
      cases h
      simp
  | map map =>
      simp only [hsupply] at h
      cases h
      simp
  | single source target amount =>
      simp only [hsupply] at h
      obtain ⟨x, hx, h⟩ := bind_eq_ok.mp h
      obtain ⟨y, hy, h⟩ := bind_eq_ok.mp h
      obtain ⟨-, rfl⟩ := Amount.checked_eq_ok.mp hx
      obtain ⟨-, rfl⟩ := Amount.checked_eq_ok.mp hy
      cases h
      simp only [Table.getElem_set, Table.getElem_const]
      split_ifs <;> simp_all

theorem guarded_eq_ok {x y : Int} (h : guarded x = .ok y) : y = x := by
  unfold guarded Amount.checked at h
  split at h <;> cases h
  rfl

theorem guarded_ne_crossed (x : Int) (arc : Nat) (lower upper : Int) :
    guarded x ≠ .error (.crossed arc lower upper) := by
  unfold guarded Amount.checked
  split <;> simp [Except.mapError]

/-- An arc's lower bound leaves one end of the arc and enters the other one. -/
def move (supply : Table Int c.nodes) (a : Fin c.arcs) : Except Obstacle (Table Int c.nodes) := do
  let supply := supply.set (c.graph.tail a) (← guarded (supply[c.graph.tail a] - c.lowerAt a))
  return supply.set (c.graph.head a) (← guarded (supply[c.graph.head a] + c.lowerAt a))

theorem move_eq_ok {a : Fin c.arcs} (h : c.move supply a = .ok shifted) (v : Fin c.nodes) :
    shifted[v] = supply[v] - ((if c.graph.tail a = v then c.lowerAt a else 0) -
      if c.graph.head a = v then c.lowerAt a else 0) := by
  obtain ⟨x, hx, h⟩ := bind_eq_ok.mp h
  obtain ⟨y, hy, h⟩ := bind_eq_ok.mp h
  cases h
  rw [guarded_eq_ok hy, guarded_eq_ok hx]
  simp only [Table.getElem_set]
  split_ifs <;> simp_all

/-- Nothing is moved if the bounds are crossed or too far apart. -/
theorem takeOut_eq (supply : Table Int c.nodes) (a : Fin c.arcs) :
    c.takeOut supply a = match c.upperAt a with
      | none => c.move supply a
      | some upper =>
          if upper < c.lowerAt a then .error (.crossed a (c.lowerAt a) upper)
          else guarded (upper - c.lowerAt a) >>= fun _ => c.move supply a := by
  unfold takeOut move
  cases c.upperAt a with
  | none => rfl
  | some upper =>
      simp only
      split <;> rfl

/-- If the lower bound of an arc is taken out, it moves from one end of the arc to the other. -/
theorem takeOut_eq_ok {a : Fin c.arcs} (h : c.takeOut supply a = .ok shifted) (v : Fin c.nodes) :
    shifted[v] = supply[v] - ((if c.graph.tail a = v then c.lowerAt a else 0) -
      if c.graph.head a = v then c.lowerAt a else 0) := by
  rw [takeOut_eq] at h
  split at h
  · exact move_eq_ok h v
  · split at h
    · cases h
    · obtain ⟨_, -, h⟩ := bind_eq_ok.mp h
      exact move_eq_ok h v

/-- Bounds are found to be crossed only if they are. -/
theorem takeOut_eq_crossed {a : Fin c.arcs} {arc : Nat} {lower upper : Int}
    (h : c.takeOut supply a = .error (.crossed arc lower upper)) :
    ∃ upper, c.upperAt a = some upper ∧ upper < c.lowerAt a := by
  have hmove : c.move supply a ≠ .error (.crossed arc lower upper) := by
    intro h
    rcases bind_eq_error.mp h with h | ⟨x, -, h⟩
    · exact guarded_ne_crossed _ _ _ _ h
    · rcases bind_eq_error.mp h with h | ⟨y, -, h⟩
      · exact guarded_ne_crossed _ _ _ _ h
      · cases h
  rw [takeOut_eq] at h
  split at h
  · exact absurd h hmove
  · split at h
    · exact ⟨_, ‹_›, ‹_›⟩
    · rcases bind_eq_error.mp h with h | ⟨x, -, h⟩
      · exact absurd h (guarded_ne_crossed _ _ _ _)
      · exact absurd h hmove

/-- Taking out the lower bounds takes out the flow that they make. -/
theorem shiftedSupplies_eq (h : c.shiftedSupplies supply = .ok shifted) (v : Fin c.nodes) :
    shifted[v] = supply[v] - c.outflow c.lowerFlow v := by
  have hfold : ∀ (arcs : List (Fin c.arcs)) (s s' : Table Int c.nodes),
      arcs.foldlM c.takeOut s = .ok s' →
        s'[v] = s[v] - (arcs.map fun a => (if c.graph.tail a = v then c.lowerAt a else 0) -
          if c.graph.head a = v then c.lowerAt a else 0).sum := by
    intro arcs
    induction arcs with
    | nil =>
        intro s s' h
        cases h
        simp
    | cons a arcs ih =>
        intro s s' h
        rw [List.foldlM_cons] at h
        obtain ⟨t, ht, h⟩ := bind_eq_ok.mp h
        rw [ih t s' h, takeOut_eq_ok ht, List.map_cons, List.sum_cons]
        ring
  rw [hfold _ _ _ h, outflow, ← List.sum_ofFn, List.ofFn_eq_map]
  simp [lowerFlow]

end Shift

section Finite

variable {c}

theorem outflow_eq (net : Network c.nodes c.arcs) (htail : ∀ a : Fin c.arcs, net.tail[a] = c.graph.tail a)
    (hhead : ∀ a : Fin c.arcs, net.head[a] = c.graph.head a) (flow : Table Int c.arcs)
    (v : Fin c.nodes) : net.outflow flow v = c.outflow flow v := by
  simp only [Network.outflow, outflow, htail, hhead]

/-- All that leaves one node enters another one. -/
theorem sum_outflow (flow : Table Int c.arcs) : ∑ v, c.outflow flow v = 0 := by
  let net : Network c.nodes c.arcs :=
    { tail := .ofFn c.graph.tail, head := .ofFn c.graph.head, cap := .const _ 0 }
  have h := net.sum_outflow flow
  simpa only [outflow_eq net (Table.getElem_ofFn _) (Table.getElem_ofFn _)] using h

variable [Cost α] {p : Problem c.nodes c.arcs (Cost.Wide α)}

/-- If `prepare` returns nothing, no flow meets the bounds and supplies. -/
theorem not_meets_of_prepare (h : c.prepare.outcome = .ok none) : ¬ ∃ flow, c.Meets flow := by
  rintro ⟨flow, hmeets⟩
  unfold prepare at h
  obtain ⟨supply, hsupply, h⟩ := Logged.outcome_bind_eq_ok.mp h
  have hsupply := Logged.outcome_ofExcept_eq_ok.mp hsupply
  cases hshifted : c.shiftedSupplies supply with
  | error obstacle =>
      rw [hshifted] at h
      cases obstacle with
      | crossed arc lower upper =>
          obtain ⟨a, -, t, hstep⟩ := exists_error_of_foldlM hshifted
          obtain ⟨upper, hupper, hlt⟩ := takeOut_eq_crossed hstep
          have h₁ := hmeets.lower_le a
          have h₂ := hmeets.le_upper a upper hupper
          omega
      | overflow => cases h
  | ok shifted =>
      rw [hshifted] at h
      obtain ⟨total, htotal, h⟩ := Logged.outcome_bind_eq_ok.mp h
      rw [outcome_foldlM_liftM, Logged.outcome_ofExcept_eq_ok] at htotal
      -- the lower bounds as a flow move supplies about, so the sum is that of the configured ones
      have hbalance : total = 0 := by
        have hsum := sum_of_foldlM_checked htotal
        rw [sum_toList] at hsum
        have hshift : ∀ v : Fin c.nodes,
            shifted[v] = c.outflow flow v - c.outflow c.lowerFlow v := by
          intro v
          rw [shiftedSupplies_eq hshifted, supplies_eq hsupply, hmeets.balanced]
        rw [sum_congr rfl fun v _ => hshift v, sum_sub_distrib, sum_outflow, sum_outflow] at hsum
        omega
      rw [if_neg (not_not.mpr hbalance)] at h
      obtain ⟨madeUp, -, h⟩ := Logged.outcome_bind_eq_ok.mp h
      simp only at h
      split at h
      · cases h
      · obtain ⟨-, -, h⟩ := Logged.outcome_bind_eq_ok.mp h
        cases h

/-- The flows of the finite problem, made-up capacities apart, are those of the configured problem
without their lower bounds. -/
theorem admits_iff_meets (h : c.prepare.outcome = .ok (some p)) (flow : Table Int c.arcs) :
    p.amounts.Admits flow ↔ c.Meets (c.raise flow) := by
  obtain ⟨supply, shifted, madeUp, hsupply, hshifted, -, -, -, rfl⟩ := c.prepare_eq_some h
  have houtflow : ∀ v, (c.toProblem shifted madeUp).amounts.outflow flow v = c.outflow flow v :=
    outflow_eq _ (Table.getElem_ofFn _) (Table.getElem_ofFn _) flow
  have hbalanced : ∀ v : Fin c.nodes,
      (c.toProblem shifted madeUp).amounts.outflow flow v =
        (c.toProblem shifted madeUp).amounts.supply[v] ↔
      c.outflow (c.raise flow) v = c.supplyAt v := by
    intro v
    have hv := shiftedSupplies_eq hshifted v
    rw [supplies_eq hsupply] at hv
    rw [houtflow, outflow_raise]
    change _ = shifted[v] ↔ _
    omega
  have hcap : ∀ a : Fin c.arcs,
      ((c.toProblem shifted madeUp).amounts.uncapped[a] = false →
        flow[a] ≤ (c.toProblem shifted madeUp).amounts.cap[a]) ↔
      ∀ upper, c.upperAt a = some upper → (c.raise flow)[a] ≤ upper := by
    intro a
    change ((Table.ofFn fun a => (c.spread a).isNone)[a] = false →
      flow[a] ≤ (Table.ofFn fun a => (c.spread a).getD madeUp)[a]) ↔ _
    rw [Table.getElem_ofFn, Table.getElem_ofFn, getElem_raise, spread]
    cases c.upperAt a with
    | none => simp
    | some upper =>
        simp
        omega
  constructor
  · intro hadmits
    refine ⟨fun a => ?_, fun a => (hcap a).mp (hadmits.le_cap a),
      fun v => (hbalanced v).mp (hadmits.balanced v)⟩
    have := hadmits.nonneg a
    rw [getElem_raise]
    omega
  · intro hmeets
    refine ⟨fun a => ?_, fun a => (hcap a).mpr (hmeets.le_upper a),
      fun v => (hbalanced v).mpr (hmeets.balanced v)⟩
    have := hmeets.lower_le a
    rw [getElem_raise] at this
    omega

private theorem sum_filterMap (xs : List (Option Int)) :
    (xs.filterMap id).sum = (xs.map (·.getD 0)).sum := by
  induction xs with
  | nil => rfl
  | cons x xs ih =>
      cases x with
      | none => simpa using ih
      | some x => simpa using ih

variable (c) in
omit [Cost α] in
/-- The capacities add up over the arcs that have one. -/
theorem sum_spreads : Amount.sum (((List.finRange c.arcs).map c.spread).filterMap id) =
    ∑ b : Fin c.arcs, (c.spread b).getD 0 := by
  show (List.filterMap id _).sum = _
  rw [sum_filterMap, ← List.sum_ofFn, List.ofFn_eq_map, List.map_map]
  rfl

/-- A made-up capacity is all that is supplied and all that the other arcs can carry. -/
theorem madeUp_eq_throughput (h : c.prepare.outcome = .ok (some p)) {a : Fin c.arcs}
    (ha : p.uncapped[a] = true) : p.cap[a] = p.amounts.throughput := by
  obtain ⟨supply, shifted, madeUp, -, -, -, hmadeUp, -, rfl⟩ := c.prepare_eq_some h
  have hnone : (c.spread a).isNone = true := by simpa [toProblem] using ha
  have hany : ((List.finRange c.arcs).map c.spread).any Option.isNone = true := by
    rw [List.any_map, List.any_eq_true]
    exact ⟨a, List.mem_finRange a, hnone⟩
  have hcap : (c.toProblem shifted madeUp).cap[a] = madeUp := by
    simp [toProblem, Option.isNone_iff_eq_none.mp hnone]
  have hterm : ∀ b : Fin c.arcs, (c.spread b).getD 0 =
      if (c.toProblem shifted madeUp).uncapped[b] then 0 else (c.toProblem shifted madeUp).cap[b] := by
    intro b
    cases hb : c.spread b <;> simp [toProblem, hb]
  unfold madeUpCapacity at hmadeUp
  simp only [hany, if_true] at hmadeUp
  obtain ⟨-, hmadeUp⟩ := Amount.checked_eq_ok.mp hmadeUp
  change (List.filter _ _).sum + _ = _ at hmadeUp
  rw [sum_positive, sum_spreads, sum_congr rfl fun b _ => hterm b] at hmadeUp
  exact hcap.trans hmadeUp.symm

/-- The finite problem has a feasible flow if some flow meets the configured one. -/
theorem exists_feasible_iff (h : c.prepare.outcome = .ok (some p)) :
    (∃ flow, p.amounts.Feasible flow) ↔ ∃ flow, c.Meets flow := by
  constructor
  · rintro ⟨flow, hfeasible⟩
    exact ⟨c.raise flow, (admits_iff_meets h flow).mp hfeasible.admits⟩
  · rintro ⟨flow, hmeets⟩
    have hadmits : p.amounts.Admits (c.excess flow) :=
      (admits_iff_meets h _).mpr (by rwa [raise_excess])
    have hfree : ¬ p.amounts.HasFreeCycle := by
      rintro ⟨u, cycle, -, hneg⟩
      have hzero : BellmanFord.costSum p.amounts.costedArcs cycle = 0 := by
        simp [BellmanFord.costSum, Problem.costedArcs, Problem.amounts]
      omega
    obtain ⟨flow', hfeasible, -⟩ :=
      hadmits.exists_feasible (fun a ha => (madeUp_eq_throughput h ha).ge) hfree
    exact ⟨flow', hfeasible⟩

end Finite

end Configuration

end NetworkFlow
