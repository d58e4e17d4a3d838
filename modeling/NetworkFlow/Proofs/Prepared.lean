import NetworkFlow.Configuration
import NetworkFlow.Proofs.Exact
import NetworkFlow.Proofs.Refusals

/-!
# What a prepared problem is like

The engines are proved correct for every problem that `Prepared` describes: no
capacity is negative, the supplies cancel out, no node is loaded with more than
the engines can count, and costs are compared without a tolerance. Every problem
that `Configuration.prepare` returns for whole costs is of this kind, once its
costs are read as integers (`Problem.exact`).

## Main results

* `prepared_of_prepare`: what `prepare` returns is prepared.
-/

namespace NetworkFlow

open Finset

variable {n m : Nat}

theorem sum_toList (xs : Table Int n) : xs.toList.sum = ∑ i : Fin n, xs[i] := by
  have hlist : xs.toList = List.ofFn fun i : Fin n => xs[i] := by
    apply List.ext_getElem (by simp [Table.toList])
    intro i h₁ h₂
    simp [Table.toList, Table.getElem_eq]
  rw [hlist, List.sum_ofFn]

/-- A checked sum that returns a value returns the sum. -/
theorem sum_of_foldlM_checked {xs : List Int} {start total : Int}
    (h : xs.foldlM (fun sum x => Amount.checked (sum + x)) start = .ok total) :
    total = start + xs.sum := by
  induction xs generalizing start with
  | nil =>
      cases h
      simp
  | cons x xs ih =>
      rw [List.foldlM_cons] at h
      obtain ⟨y, hy, hrest⟩ := bind_eq_ok.mp h
      obtain ⟨-, rfl⟩ := Amount.checked_eq_ok.mp hy
      have := ih hrest
      rw [List.sum_cons]
      omega

/-- A checked sum that returns a value returns an amount. -/
theorem fits_of_foldlM_checked {xs : List Int} {start total : Int}
    (hstart : Width.bits64.Fits start)
    (h : xs.foldlM (fun sum x => Amount.checked (sum + x)) start = .ok total) :
    Width.bits64.Fits total := by
  induction xs generalizing start with
  | nil =>
      cases h
      exact hstart
  | cons x xs ih =>
      rw [List.foldlM_cons] at h
      obtain ⟨y, hy, hrest⟩ := bind_eq_ok.mp h
      obtain ⟨hfits, rfl⟩ := Amount.checked_eq_ok.mp hy
      exact ih hfits hrest

/-- A running sum is refused exactly if one of its partial sums is no amount. -/
theorem exists_foldlM_checked_iff (xs : List Int) (start : Int) :
    (∃ total, xs.foldlM (fun sum x => Amount.checked (sum + x)) start = .ok total) ↔
      ∀ k < xs.length, Width.bits64.Fits (start + (xs.take (k + 1)).sum) := by
  induction xs generalizing start with
  | nil => exact ⟨fun _ k hk => absurd hk (by simp), fun _ => ⟨start, rfl⟩⟩
  | cons x xs ih =>
      have hstep : (∃ total, (x :: xs).foldlM (fun sum x => Amount.checked (sum + x)) start =
          .ok total) ↔ Width.bits64.Fits (start + x) ∧
            ∃ total, xs.foldlM (fun sum x => Amount.checked (sum + x)) (start + x) = .ok total := by
        simp only [List.foldlM_cons, bind_eq_ok, Amount.checked_eq_ok]
        constructor
        · rintro ⟨total, y, ⟨hfits, rfl⟩, h⟩
          exact ⟨hfits, total, h⟩
        · rintro ⟨hfits, total, h⟩
          exact ⟨total, start + x, ⟨hfits, rfl⟩, h⟩
      rw [hstep, ih]
      constructor
      · rintro ⟨hfits, hrest⟩ k hk
        cases k with
        | zero => simpa using hfits
        | succ k =>
            have := hrest k (by simpa using hk)
            rwa [List.take_succ_cons, List.sum_cons, ← add_assoc]
      · intro h
        refine ⟨by simpa using h 0 (by simp), fun k hk => ?_⟩
        have := h (k + 1) (by simpa using hk)
        rwa [List.take_succ_cons, List.sum_cons, ← add_assoc] at this

theorem sum_filter_pos (xs : List Int) : (xs.filter (0 < ·)).sum = (xs.map (max · 0)).sum := by
  induction xs with
  | nil => rfl
  | cons x xs ih =>
      rw [List.filter_cons, List.map_cons, List.sum_cons, ← ih]
      by_cases h : 0 < x
      · rw [if_pos (by simpa using h), List.sum_cons, max_eq_left h.le]
      · rw [if_neg (by simpa using h), max_eq_right (not_lt.mp h), zero_add]

/-- The supplies that are positive add up to what is supplied. -/
theorem sum_positive (supply : Table Int n) :
    (supply.toList.filter (0 < ·)).sum = ∑ v : Fin n, max supply[v] 0 := by
  have hmap : supply.toList.map (max · 0) = (supply.map (max · 0)).toList := by
    simp [Table.toList, Table.map, Vector.toList_map]
  rw [sum_filter_pos, hmap, sum_toList]
  simp

theorem mem_toList {α : Type} {xs : Table α n} {x : α} :
    x ∈ xs.toList ↔ ∃ i : Fin n, xs[i] = x := by
  simp only [Table.toList, Vector.mem_toList_iff, Vector.mem_iff_getElem, Table.getElem_eq]
  constructor
  · rintro ⟨i, hi, h⟩
    exact ⟨⟨i, hi⟩, h⟩
  · rintro ⟨i, h⟩
    exact ⟨i, i.isLt, h⟩

theorem getElem_mem_toList {α : Type} (xs : Table α n) (i : Fin n) : xs[i] ∈ xs.toList :=
  mem_toList.mpr ⟨i, rfl⟩

/-- The largest magnitude in a table is the least number that bounds them all. -/
theorem isLeast_maxMagnitude [ExactCosts] (xs : Table Int n) :
    IsLeast {x | 0 ≤ x ∧ ∀ i : Fin n, |xs[i]| ≤ x} (Scalar.maxMagnitude 0 xs.toList) := by
  refine ⟨⟨le_maxMagnitude 0 _, fun i => magnitude_le_maxMagnitude 0 (getElem_mem_toList xs i)⟩,
    fun x hx => maxMagnitude_le hx.1 fun y hy => ?_⟩
  obtain ⟨i, rfl⟩ := mem_toList.mp hy
  exact hx.2 i

namespace Problem

/-- The most that can pass through a node: its supply and the capacities of its arcs. -/
def load {α : Type} (p : Problem n m α) (v : Fin n) : Int :=
  |p.supply[v]| + ∑ a : Fin m,
    ((if p.tail[a] = v then p.cap[a] else 0) + if p.head[a] = v then p.cap[a] else 0)

/-- What the engines rely on. -/
structure Prepared (p : Problem n m Int) : Prop where
  cap_nonneg : ∀ a : Fin m, 0 ≤ p.cap[a]
  sum_supply : ∑ v : Fin n, p.supply[v] = 0
  load_le : ∀ v, p.load v ≤ Amount.loadLimit
  tolerance_eq : p.tolerance = 0

/-- The problem with its costs read as integers. -/
def exact {w : Width} (p : Problem n m (Word w)) : Problem n m Int :=
  { p with cost := p.cost.map (·.val), tolerance := p.tolerance.val }

/-- The problem without its costs. -/
def amounts {α : Type} (p : Problem n m α) : Problem n m Int :=
  { p with cost := .const m 0, tolerance := 0 }

/-- Whether a flow is feasible does not depend on the costs. -/
theorem feasible_amounts {p : Problem n m Int} {flow : Table Int m} :
    p.amounts.Feasible flow ↔ p.Feasible flow := by
  constructor <;> exact fun h => ⟨h.within, h.balanced⟩

/-- What the engines rely on but for the costs does not depend on them. -/
theorem Prepared.amounts {p : Problem n m Int} (hp : p.Prepared) : p.amounts.Prepared :=
  ⟨hp.cap_nonneg, hp.sum_supply, hp.load_le, rfl⟩

/-- A supply can be counted. -/
theorem Prepared.abs_supply_le {p : Problem n m Int} (hp : p.Prepared) (v : Fin n) :
    |p.supply[v]| ≤ Amount.loadLimit := by
  have hsum : 0 ≤ ∑ a : Fin m,
      ((if p.tail[a] = v then p.cap[a] else 0) + if p.head[a] = v then p.cap[a] else 0) := by
    apply sum_nonneg
    intro a _
    have := hp.cap_nonneg a
    split_ifs <;> omega
  have := hp.load_le v
  unfold load at this
  omega

/-- A capacity can be counted. -/
theorem Prepared.cap_le {p : Problem n m Int} (hp : p.Prepared) (a : Fin m) :
    p.cap[a] ≤ Amount.loadLimit := by
  have hterm : ∀ b : Fin m, 0 ≤ (if p.tail[b] = p.tail[a] then p.cap[b] else 0) +
      if p.head[b] = p.tail[a] then p.cap[b] else 0 := by
    intro b
    have := hp.cap_nonneg b
    split_ifs <;> omega
  have hsum := single_le_sum (fun b _ => hterm b) (mem_univ a)
  have hcap := hp.cap_nonneg a
  have habs := abs_nonneg p.supply[p.tail[a]]
  have hload := hp.load_le p.tail[a]
  unfold load at hload
  simp only [if_true] at hsum
  split_ifs at hsum <;> omega

/-- The empty flow stays within the capacities. -/
theorem Prepared.within_zero {p : Problem n m Int} (hp : p.Prepared) :
    p.Within (.const m 0) := by
  intro a
  have := hp.cap_nonneg a
  simp [this]

end Problem

section Prices

variable {w : Width} {p : Problem n m (Word w)} {top : Int}

theorem abs_price_le {cost : Table Int m} (htop : ∀ a : Fin m, |cost[a]| ≤ top)
    (r : ResidualArc m) : |r.price cost| ≤ top := by
  unfold ResidualArc.price
  split
  · rw [abs_neg]
    exact htop r.arc
  · exact htop r.arc

theorem Problem.abs_exact_cost_le (htop : ∀ a : Fin m, |p.cost[a].val| ≤ top) (a : Fin m) :
    |p.exact.cost[a]| ≤ top := by
  simpa [Problem.exact] using htop a

end Prices

namespace Configuration

variable {w cw : Width} {α : Type} (c : Configuration w α)

theorem spread_nonneg {supply shifted : Table Int c.nodes}
    (h : c.shiftedSupplies supply = .ok shifted) {a : Fin c.arcs} {x : Int}
    (hx : c.spread a = some x) : 0 ≤ x := by
  obtain ⟨t, t', ht⟩ := exists_step_of_foldlM h a (List.mem_finRange a)
  unfold spread at hx
  unfold takeOut at ht
  cases hu : c.upperAt a with
  | none =>
      rw [hu] at hx
      cases hx
  | some upper =>
      rw [hu] at hx ht
      cases hx
      by_cases hlt : upper < c.lowerAt a
      · simp [hlt] at ht
        cases ht
      · show 0 ≤ upper - c.lowerAt a
        omega

/-- A made-up capacity is the sum of amounts that are not negative. -/
private theorem madeUpCapacity_nonneg {supply : Table Int c.nodes} {madeUp : Int}
    (hspread : ∀ a x, c.spread a = some x → 0 ≤ x)
    (h : c.madeUpCapacity supply = .ok madeUp) : 0 ≤ madeUp := by
  have hsum : ∀ xs : List Int, (∀ x ∈ xs, 0 ≤ x) → 0 ≤ Amount.sum xs := by
    intro xs hxs
    induction xs with
    | nil => exact le_refl _
    | cons x xs ih =>
        have h₁ := hxs x (by simp)
        have h₂ := ih fun y hy => hxs y (by simp [hy])
        show 0 ≤ x + Amount.sum xs
        omega
  unfold madeUpCapacity at h
  simp only at h
  split at h
  · obtain ⟨_, rfl⟩ := Amount.checked_eq_ok.mp h
    have h₁ := hsum (supply.toList.filter (0 < ·)) (by
      intro x hx
      have := (List.mem_filter.mp hx).2
      simp only [decide_eq_true_eq] at this
      omega)
    have h₂ := hsum (((List.finRange c.arcs).map c.spread).filterMap id) (by
      intro x hx
      obtain ⟨o, ho, hox⟩ := List.mem_filterMap.mp hx
      obtain ⟨a, _, rfl⟩ := List.mem_map.mp ho
      exact hspread a x hox)
    omega
  · cases h
    exact le_refl _

private theorem load_foldl (tail head : Fin m → Fin n) (cap : Fin m → Int) (arcs : List (Fin m))
    (load : Table Int n) (v : Fin n) :
    (arcs.foldl (fun load a =>
        let load := load.set (tail a) (load[tail a] + cap a)
        load.set (head a) (load[head a] + cap a)) load)[v] =
      load[v] + (arcs.map fun a =>
        (if tail a = v then cap a else 0) + if head a = v then cap a else 0).sum := by
  induction arcs generalizing load with
  | nil => simp
  | cons a arcs ih =>
      rw [List.foldl_cons, ih, List.map_cons, List.sum_cons]
      simp only [Table.getElem_set]
      by_cases ht : tail a = v <;> by_cases hh : head a = v
      · subst ht
        simp only [hh, if_true]
        ring
      · simp only [ht, hh, if_true, if_false]
        ring
      · subst hh
        simp only [ht, if_true, if_false]
        ring
      · simp only [ht, hh, if_false]
        ring

/-- The loads that are checked are those of the finite problem. -/
theorem load_eq [Cost α] {supply : Table Int c.nodes} {madeUp : Int} (v : Fin c.nodes) :
    (c.load supply (c.toProblem supply madeUp).cap)[v] = (c.toProblem supply madeUp).load v := by
  unfold load
  rw [load_foldl c.graph.tail c.graph.head fun a => (c.toProblem supply madeUp).cap[a],
    Table.getElem_map, Problem.load, ← List.sum_ofFn, List.ofFn_eq_map]
  simp [toProblem]

private theorem prepare_steps [Cost α] {p : Problem c.nodes c.arcs (Cost.Wide α)}
    (h : c.prepare.outcome = .ok (some p)) :
    (∃ supply shifted madeUp, c.supplies = .ok supply ∧ c.shiftedSupplies supply = .ok shifted ∧
      ∑ v : Fin c.nodes, shifted[v] = 0 ∧ c.madeUpCapacity shifted = .ok madeUp ∧
      (∀ v : Fin c.nodes, (c.load shifted (c.toProblem shifted madeUp).cap)[v] ≤ Amount.loadLimit) ∧
      p = c.toProblem shifted madeUp) ∧ ∀ op ∈ c.costOperations, Scalar.fits op = true := by
  unfold prepare at h
  obtain ⟨supply, hsupply, h⟩ := Logged.outcome_bind_eq_ok.mp h
  cases hshifted : c.shiftedSupplies supply with
  | error obstacle =>
      rw [hshifted] at h
      cases obstacle with
      | crossed arc lower upper => cases h
      | overflow => cases h
  | ok shifted =>
      rw [hshifted] at h
      obtain ⟨total, htotal, h⟩ := Logged.outcome_bind_eq_ok.mp h
      rw [outcome_foldlM_liftM, Logged.outcome_ofExcept_eq_ok] at htotal
      have hsum := sum_of_foldlM_checked htotal
      rw [sum_toList] at hsum
      split at h
      · cases h
      · obtain ⟨madeUp, hmadeUp, h⟩ := Logged.outcome_bind_eq_ok.mp h
        simp only at h
        split at h
        · cases h
        · rename_i hload
          obtain ⟨⟨⟩, hfits, h⟩ := Logged.outcome_bind_eq_ok.mp h
          refine ⟨⟨supply, shifted, madeUp, Logged.outcome_ofExcept_eq_ok.mp hsupply, hshifted,
            by omega, Logged.outcome_ofExcept_eq_ok.mp hmadeUp, fun v => ?_,
            by simpa using h.symm⟩, Scalar.inRange_eq_ok.mp (Logged.outcome_ofRun_eq_ok.mp hfits)⟩
          have hv := List.findIdx?_eq_none_iff.mp hload _ (getElem_mem_toList _ v)
          simpa using hv

/-- If `prepare` returns a problem, no computation on the way was refused, the supplies cancel
out and no node is loaded with too much. -/
theorem prepare_eq_some [Cost α] {p : Problem c.nodes c.arcs (Cost.Wide α)}
    (h : c.prepare.outcome = .ok (some p)) :
    ∃ supply shifted madeUp, c.supplies = .ok supply ∧ c.shiftedSupplies supply = .ok shifted ∧
      ∑ v : Fin c.nodes, shifted[v] = 0 ∧ c.madeUpCapacity shifted = .ok madeUp ∧
      (∀ v : Fin c.nodes, (c.load shifted (c.toProblem shifted madeUp).cap)[v] ≤ Amount.loadLimit) ∧
      p = c.toProblem shifted madeUp :=
  (c.prepare_steps h).1

/-- If `prepare` returns a problem, what it computes from the costs fits. -/
theorem costOperations_fit [Cost α] {p : Problem c.nodes c.arcs (Cost.Wide α)}
    (h : c.prepare.outcome = .ok (some p)) : ∀ op ∈ c.costOperations, Scalar.fits op = true :=
  (c.prepare_steps h).2

/-- What `prepare` returns is prepared but for its costs, whatever they are. -/
theorem prepared_amounts [Cost α] {p : Problem c.nodes c.arcs (Cost.Wide α)}
    (h : c.prepare.outcome = .ok (some p)) : p.amounts.Prepared := by
  obtain ⟨supply, shifted, madeUp, -, hshifted, hsum, hmadeUp, hload, rfl⟩ := c.prepare_eq_some h
  have hspread : ∀ a x, c.spread a = some x → 0 ≤ x := fun a x => c.spread_nonneg hshifted
  refine ⟨fun a => ?_, hsum, fun v => ?_, rfl⟩
  · show 0 ≤ (Table.ofFn fun a => (c.spread a).getD madeUp)[a]
    rw [Table.getElem_ofFn]
    cases hx : c.spread a with
    | none => exact c.madeUpCapacity_nonneg hspread hmadeUp
    | some x => exact hspread a x hx
  · show (c.toProblem shifted madeUp).load v ≤ Amount.loadLimit
    rw [← load_eq]
    exact hload v

theorem val_costTolerance (c : Configuration w (Word cw)) :
    (c.costTolerance : Word cw.wider).val = 0 := by
  show (Word.wrap (0 * _) : Word cw.wider).val = 0
  rw [zero_mul, Word.wrap_of_fits (Width.fits_zero _)]

/-- What `prepare` returns is prepared. -/
theorem prepared_of_prepare (c : Configuration w (Word cw))
    {p : Problem c.nodes c.arcs (Cost.Wide (Word cw))} (h : c.prepare.outcome = .ok (some p)) :
    p.exact.Prepared := by
  have hamounts := c.prepared_amounts h
  obtain ⟨_, _, _, -, -, -, -, -, rfl⟩ := c.prepare_eq_some h
  exact ⟨hamounts.cap_nonneg, hamounts.sum_supply, hamounts.load_le, c.val_costTolerance⟩

/-- An arc from the first to the second one of two nodes. -/
theorem below_loneArc : ∀ e ∈ #[(⟨0, 1⟩ : Ends)], e.Below 2 := by
  decide

/-- Two units to be sent over two parallel arcs, the cheaper one of capacity one. -/
def parallelArcs : Configuration .bits64 (Word .bits64) where
  graph := { id := ⟨0⟩, nodeCount := 2, ends := #[⟨0, 1⟩, ⟨0, 1⟩], below := by decide }
  upper := some { graph := ⟨0⟩, values := #[⟨1, by decide⟩, ⟨2, by decide⟩], fill := default }
  cost := some { graph := ⟨0⟩, values := #[⟨1, by decide⟩, ⟨3, by decide⟩], fill := default }
  supply := .single ⟨0, Nat.two_pos⟩ ⟨1, Nat.one_lt_two⟩ ⟨2, by decide⟩

/-- The finite problem of `parallelArcs`. -/
def parallelProblem : Problem 2 2 (Word .bits128) :=
  parallelArcs.toProblem ⟨#v[2, -2]⟩ 0

theorem prepare_parallelArcs :
    parallelArcs.prepare.outcome = .ok (some parallelProblem) := by
  with_unfolding_all rfl

end Configuration

end NetworkFlow
