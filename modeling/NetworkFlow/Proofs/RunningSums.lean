import NetworkFlow.Proofs.Agreement

/-!
# Which problems in range are refused

A problem is in range if no lower bound is above its upper bound and no node is loaded with more
than the engines can gather at one node. Supplies and capacities are here what is left of them when
the lower bounds are taken out, as integers.

Nothing that the range bounds is refused, but on the way to it sums are formed term by term: the
lower bounds are moved into the supplies one arc after the other, the supplies are added up one node
after the other, and cost scaling adds up the supplies that are positive. Each of these sums must be
an amount, also where the range is kept by what comes later. Whether it is depends on the order of
the arcs and of the nodes.

## Main results

* `exists_shiftedSupplies_iff`, `exists_total_iff`: when a running sum is refused.
* `sumsCounted_iff`: a problem in range is refused before the finite problem is made exactly if a
  running sum is no amount.
* `refuses_nothing_iff`: when a run is refused.
* `roundabout_refused`: a problem that loads no node at all is refused.
-/

namespace NetworkFlow

open Finset

theorem sum_take_toList {n : Nat} (xs : Table Int n) (k : Nat) :
    (xs.toList.take k).sum = ∑ i : Fin n with i.val < k, xs[i] := by
  have hlist : xs.toList = List.ofFn fun i : Fin n => xs[i] := by
    apply List.ext_getElem (by simp [Table.toList])
    intro i h₁ h₂
    simp [Table.toList, Table.getElem_eq]
  rw [hlist, List.sum_take_ofFn]

/-- The supplies of a table are added up without refusal exactly if those of the first nodes, however
many, add up to an amount. -/
theorem exists_total_iff {n : Nat} (xs : Table Int n) :
    (∃ total, xs.toList.foldlM (fun sum x => Amount.checked (sum + x)) 0 = .ok total) ↔
      ∀ k ≤ n, Width.bits64.Fits (∑ i : Fin n with i.val < k, xs[i]) := by
  have hlength : xs.toList.length = n := by simp [Table.toList]
  rw [exists_foldlM_checked_iff, hlength]
  simp only [sum_take_toList, zero_add]
  constructor
  · intro h k hk
    cases k with
    | zero => simpa using Width.fits_zero _
    | succ k => exact h k hk
  · exact fun h k hk => h (k + 1) hk

namespace Problem

variable {n m : Nat} {α : Type} {p : Problem n m α}

/-- The demand is counted only if it is an amount. -/
theorem le_largest_of_demand {demand : Int} (h : p.demand = .ok demand) :
    ∑ v : Fin n, max p.supply[v] 0 ≤ Amount.largest := by
  have heq : demand = ∑ v : Fin n, max p.supply[v] 0 := demand_eq (p := p.amounts) h
  have hsum := sum_of_foldlM_checked h
  have hcounted := (exists_foldlM_checked_iff _ _).mp ⟨demand, h⟩
  rw [← heq]
  cases hlength : (p.supply.toList.filter (0 < ·)).length with
  | zero =>
      rw [List.length_eq_zero_iff.mp hlength] at hsum
      rw [hsum]
      decide
  | succ k =>
      have hall := hcounted k (by omega)
      rw [List.take_of_length_le (by omega), ← hsum] at hall
      exact Int.le_of_lt_add_one hall.2

end Problem

namespace CostScaling

/-- Cost scaling is refused if it cannot count the demand. -/
theorem solve_refused {n m fuel alpha : Nat} {α : Type} [Scalar α] {p : Problem n m α}
    (h : Amount.largest < ∑ v : Fin n, max p.supply[v] 0) :
    (solve fuel p alpha).outcome = .error (.refused .arithmeticOverflow) := by
  cases hdemand : p.demand with
  | ok demand => exact absurd (Problem.le_largest_of_demand hdemand) (not_le.mpr h)
  | error cause =>
      have hcause : cause = .arithmeticOverflow := Problem.demand_error (p := p.amounts) hdemand
      subst hcause
      unfold solve feasibleFlow
      rw [Logged.outcome_bind, Logged.outcome_bind, hdemand]
      rfl

end CostScaling

/-- An engine refuses a problem whose artificial arcs cost no more than fits exactly if it is cost
scaling and cannot count the demand. -/
theorem Method.solve_refuses_nothing_iff {n m fuel : Nat} {w : Width} {p : Problem n m (Word w)}
    {top : Int} {method : Method} (hp : p.exact.Prepared) (htop : ∀ a : Fin m, |p.cost[a].val| ≤ top)
    (hnonneg : 0 ≤ top) (hfits : ((n : Int) + 1) * (top + 1) < w.half) :
    ((method.solve fuel p).RefusesOnly fun _ => False) ↔
      (method.algorithm = .costScaling → ∑ v : Fin n, max p.supply[v] 0 ≤ Amount.largest) := by
  refine ⟨fun honly hscaling => ?_, Method.refuses_nothing hp htop hnonneg hfits⟩
  by_contra hlarge
  cases method with
  | costScaling alpha => exact honly _ (CostScaling.solve_refused (not_le.mp hlarge))
  | networkSimplex rule => cases hscaling
  | capacityScaling factor => cases hscaling

namespace Configuration

variable {w : Width} {α : Type} (c : Configuration w α)

/-- The supply of a node when the lower bounds are taken out. -/
def netSupply (v : Fin c.nodes) : Int := c.supplyAt v - c.outflow c.lowerFlow v

/-- All that is supplied and all that the arcs with an upper bound can carry. -/
def netThroughput : Int :=
  ∑ v, max (c.netSupply v) 0 + ∑ a : Fin c.arcs, (c.spread a).getD 0

/-- What an arc can carry above its lower bound; an arc without an upper bound counts as if it had
room for everything. -/
def netCap (a : Fin c.arcs) : Int := (c.spread a).getD c.netThroughput

/-- The most that can pass through a node. -/
def netLoad (v : Fin c.nodes) : Int :=
  |c.netSupply v| + ∑ a : Fin c.arcs,
    ((if c.graph.tail a = v then c.netCap a else 0) + if c.graph.head a = v then c.netCap a else 0)

/-- No bounds are crossed, and the engines can gather what passes through each node. -/
structure InRange : Prop where
  ordered : ∀ (a : Fin c.arcs) upper, c.upperAt a = some upper → c.lowerAt a ≤ upper
  netLoad_le : ∀ v, c.netLoad v ≤ Amount.loadLimit

/-- What the lower bound of an arc takes out of a node. -/
def takenFrom (v : Fin c.nodes) (a : Fin c.arcs) : Int :=
  (if c.graph.tail a = v then c.lowerAt a else 0) - if c.graph.head a = v then c.lowerAt a else 0

/-- The supply of a node when the lower bounds of the first arcs are taken out. -/
def supplyAfter (count : Nat) (v : Fin c.nodes) : Int :=
  c.supplyAt v - ∑ a : Fin c.arcs with a.val < count, c.takenFrom v a

/-- All running sums are amounts: the supplies as they are given, as the lower bounds are moved into
them arc by arc, and as they are added up node by node. -/
structure SumsCounted : Prop where
  given : ∀ v, Width.bits64.Fits (c.supplyAt v)
  leaves : ∀ a : Fin c.arcs, Width.bits64.Fits (c.supplyAfter a (c.graph.tail a) - c.lowerAt a)
  enters : ∀ a : Fin c.arcs, Width.bits64.Fits (c.supplyAfter (a + 1) (c.graph.head a))
  total : ∀ k ≤ c.nodes, Width.bits64.Fits (∑ v : Fin c.nodes with v.val < k, c.netSupply v)

section Supplies

theorem supplyAfter_zero (v : Fin c.nodes) : c.supplyAfter 0 v = c.supplyAt v := by
  simp [supplyAfter]

theorem supplyAfter_succ (a : Fin c.arcs) (v : Fin c.nodes) :
    c.supplyAfter (a + 1) v = c.supplyAfter a v - c.takenFrom v a := by
  have hset : univ.filter (fun b : Fin c.arcs => b.val < a.val + 1) =
      insert a (univ.filter fun b : Fin c.arcs => b.val < a.val) := by
    ext b
    simp [Fin.ext_iff]
    omega
  unfold supplyAfter
  rw [hset, sum_insert (by simp)]
  ring

theorem supplyAfter_arcs (v : Fin c.nodes) : c.supplyAfter c.arcs v = c.netSupply v := by
  have hall : univ.filter (fun b : Fin c.arcs => b.val < c.arcs) = univ :=
    filter_true_of_mem fun b _ => b.isLt
  unfold supplyAfter netSupply outflow
  rw [hall]
  congr 1
  apply sum_congr rfl
  intro a _
  rw [lowerFlow, Table.getElem_ofFn]
  rfl

theorem fits_ofWord (x : Word w) : Width.bits64.Fits (Amount.ofWord x) := (reportable_ofWord x).2

theorem exists_supplies_iff :
    (∃ supply, c.supplies = .ok supply) ↔ ∀ v, Width.bits64.Fits (c.supplyAt v) := by
  constructor
  · rintro ⟨supply, h⟩ v
    unfold supplies at h
    unfold supplyAt
    cases hsupply : c.supply with
    | zero => exact Width.fits_zero _
    | map map => exact fits_ofWord _
    | single source target amount =>
        simp only [hsupply] at h
        obtain ⟨x, hx, h⟩ := bind_eq_ok.mp h
        obtain ⟨y, hy, -⟩ := bind_eq_ok.mp h
        obtain ⟨hfits, rfl⟩ := Amount.checked_eq_ok.mp hx
        obtain ⟨hfits', rfl⟩ := Amount.checked_eq_ok.mp hy
        have hamount := fits_ofWord amount
        simp only [Table.getElem_set, Table.getElem_const] at hfits'
        by_cases hs : source = v <;> by_cases ht : target = v <;> simp_all [Width.fits_zero]
  · intro h
    unfold supplies
    unfold supplyAt at h
    cases hsupply : c.supply with
    | zero => exact ⟨_, rfl⟩
    | map map => exact ⟨_, rfl⟩
    | single source target amount =>
        simp only [hsupply] at h ⊢
        have hfirst : Width.bits64.Fits
            ((Table.const c.nodes 0)[source] + Amount.ofWord amount) := by
          simpa using fits_ofWord amount
        have hsecond : Width.bits64.Fits (((Table.const c.nodes 0).set source
            ((Table.const c.nodes 0)[source] + Amount.ofWord amount))[target] -
              Amount.ofWord amount) := by
          have := h target
          simp only [Table.getElem_set, Table.getElem_const]
          split_ifs at this ⊢ <;> simp_all
        rw [Amount.checked_eq_ok.mpr ⟨hfirst, rfl⟩]
        simp only [bind, Except.bind]
        rw [Amount.checked_eq_ok.mpr ⟨hsecond, rfl⟩]
        exact ⟨_, rfl⟩

end Supplies

section Shift

variable {c}

theorem guarded_of_fits {x : Int} (h : Width.bits64.Fits x) : guarded x = .ok x := by
  unfold guarded
  rw [Amount.checked_eq_ok.mpr ⟨h, rfl⟩]
  rfl

theorem fits_of_guarded {x y : Int} (h : guarded x = .ok y) : Width.bits64.Fits x := by
  unfold guarded Amount.checked at h
  split at h
  · assumption
  · cases h

/-- A lower bound is moved unless what is left of one supply, or made of the other one, is no
amount. -/
theorem exists_move_iff (supply : Table Int c.nodes) (a : Fin c.arcs) :
    (∃ shifted, c.move supply a = .ok shifted) ↔
      Width.bits64.Fits (supply[c.graph.tail a] - c.lowerAt a) ∧
        Width.bits64.Fits (supply[c.graph.head a] - c.takenFrom (c.graph.head a) a) := by
  have hhead : (supply.set (c.graph.tail a)
      (supply[c.graph.tail a] - c.lowerAt a))[c.graph.head a] + c.lowerAt a =
        supply[c.graph.head a] - c.takenFrom (c.graph.head a) a := by
    unfold takenFrom
    by_cases hloop : c.graph.tail a = c.graph.head a
    · rw [hloop]
      simp
    · rw [Table.getElem_set_of_ne _ _ hloop]
      simp [hloop]
  rw [← hhead]
  constructor
  · rintro ⟨shifted, h⟩
    obtain ⟨x, hx, h⟩ := bind_eq_ok.mp h
    obtain ⟨y, hy, -⟩ := bind_eq_ok.mp h
    rw [guarded_eq_ok hx] at hy
    exact ⟨fits_of_guarded hx, fits_of_guarded hy⟩
  · rintro ⟨htail, hhead⟩
    unfold move
    rw [guarded_of_fits htail]
    simp only [bind, Except.bind]
    rw [guarded_of_fits hhead]
    exact ⟨_, rfl⟩

/-- Bounds that are not crossed and not too far apart are only moved. -/
theorem takeOut_eq_move {a : Fin c.arcs}
    (h : ∀ upper, c.upperAt a = some upper →
      c.lowerAt a ≤ upper ∧ Width.bits64.Fits (upper - c.lowerAt a)) (supply : Table Int c.nodes) :
    c.takeOut supply a = c.move supply a := by
  rw [takeOut_eq]
  cases hupper : c.upperAt a with
  | none => rfl
  | some upper =>
      obtain ⟨hle, hfits⟩ := h upper hupper
      simp only
      rw [if_neg (not_lt.mpr hle), guarded_of_fits hfits]
      rfl

/-- The lower bounds from some arc on are moved unless a running sum is no amount. -/
private theorem exists_foldlM_takeOut_iff
    (hbounds : ∀ (a : Fin c.arcs) upper, c.upperAt a = some upper →
      c.lowerAt a ≤ upper ∧ Width.bits64.Fits (upper - c.lowerAt a))
    {k : Nat} {supply : Table Int c.nodes} (hsupply : ∀ v, supply[v] = c.supplyAfter k v) :
    (∃ shifted, ((List.finRange c.arcs).drop k).foldlM c.takeOut supply = .ok shifted) ↔
      ∀ a : Fin c.arcs, k ≤ a.val →
        Width.bits64.Fits (c.supplyAfter a (c.graph.tail a) - c.lowerAt a) ∧
          Width.bits64.Fits (c.supplyAfter (a + 1) (c.graph.head a)) := by
  -- induction on the number of arcs left, with what the arcs before have made of the supplies
  induction hleft : c.arcs - k generalizing k supply with
  | zero =>
      rw [List.drop_of_length_le (by simp; omega)]
      exact ⟨fun _ a ha => absurd a.isLt (by omega), fun _ => ⟨supply, rfl⟩⟩
  | succ left ih =>
      have hk : k < c.arcs := by omega
      have hdrop : (List.finRange c.arcs).drop k =
          ⟨k, hk⟩ :: (List.finRange c.arcs).drop (k + 1) := by
        rw [List.drop_eq_getElem_cons (by simpa using hk)]
        simp
      have hsucc : ∀ v, c.supplyAfter (k + 1) v = c.supplyAfter k v - c.takenFrom v ⟨k, hk⟩ :=
        c.supplyAfter_succ ⟨k, hk⟩
      have hmove := exists_move_iff supply ⟨k, hk⟩
      rw [hsupply, hsupply, ← hsucc] at hmove
      have hnext : ∀ {shifted}, c.move supply ⟨k, hk⟩ = .ok shifted →
          ∀ v, shifted[v] = c.supplyAfter (k + 1) v := by
        intro shifted h v
        rw [move_eq_ok h, hsupply, hsucc]
        rfl
      simp only [hdrop, List.foldlM_cons, bind_eq_ok, takeOut_eq_move (hbounds ⟨k, hk⟩)]
      constructor
      · rintro ⟨shifted, next, h, hrest⟩ a ha
        rcases Nat.eq_or_lt_of_le ha with heq | hlt
        · obtain rfl : a = ⟨k, hk⟩ := Fin.ext heq.symm
          exact hmove.mp ⟨next, h⟩
        · exact (ih (hnext h) (by omega)).mp ⟨shifted, hrest⟩ a hlt
      · intro h
        obtain ⟨next, hnext'⟩ := hmove.mpr (h ⟨k, hk⟩ le_rfl)
        obtain ⟨shifted, hrest⟩ :=
          (ih (hnext hnext') (by omega)).mpr fun a ha => h a (by omega)
        exact ⟨shifted, next, hnext', hrest⟩

/-- The lower bounds are taken out unless a running sum is no amount. -/
theorem exists_shiftedSupplies_iff
    (hbounds : ∀ (a : Fin c.arcs) upper, c.upperAt a = some upper →
      c.lowerAt a ≤ upper ∧ Width.bits64.Fits (upper - c.lowerAt a))
    {supply : Table Int c.nodes} (hsupply : c.supplies = .ok supply) :
    (∃ shifted, c.shiftedSupplies supply = .ok shifted) ↔
      ∀ a : Fin c.arcs, Width.bits64.Fits (c.supplyAfter a (c.graph.tail a) - c.lowerAt a) ∧
        Width.bits64.Fits (c.supplyAfter (a + 1) (c.graph.head a)) := by
  have hstart : ∀ v, supply[v] = c.supplyAfter 0 v :=
    fun v => by rw [supplies_eq hsupply, supplyAfter_zero]
  have h := exists_foldlM_takeOut_iff hbounds hstart
  simpa [shiftedSupplies] using h

theorem netSupply_eq {supply shifted : Table Int c.nodes} (hsupply : c.supplies = .ok supply)
    (hshifted : c.shiftedSupplies supply = .ok shifted) (v : Fin c.nodes) :
    shifted[v] = c.netSupply v := by
  rw [shiftedSupplies_eq hshifted, supplies_eq hsupply]
  rfl

end Shift

section Range

variable {c} (h : c.InRange)
include h

theorem InRange.spread_nonneg {a : Fin c.arcs} {x : Int} (hx : c.spread a = some x) : 0 ≤ x := by
  unfold spread at hx
  obtain ⟨upper, hupper, rfl⟩ := Option.map_eq_some_iff.mp hx
  have := h.ordered a upper hupper
  omega

theorem InRange.netThroughput_nonneg : 0 ≤ c.netThroughput := by
  refine add_nonneg (sum_nonneg fun v _ => le_max_right _ _) (sum_nonneg fun a _ => ?_)
  cases hx : c.spread a with
  | none => exact le_rfl
  | some x => exact h.spread_nonneg hx

theorem InRange.netCap_nonneg (a : Fin c.arcs) : 0 ≤ c.netCap a := by
  unfold netCap
  cases hx : c.spread a with
  | none => exact h.netThroughput_nonneg
  | some x => exact h.spread_nonneg hx

/-- What an arc can carry is part of the load of its first node. -/
theorem InRange.netCap_le (a : Fin c.arcs) : c.netCap a ≤ Amount.loadLimit := by
  have hnonneg : ∀ (b : Fin c.arcs) (v : Fin c.nodes),
      0 ≤ (if c.graph.tail b = v then c.netCap b else 0) +
        if c.graph.head b = v then c.netCap b else 0 := by
    intro b v
    have := h.netCap_nonneg b
    split_ifs <;> omega
  have hterm := single_le_sum (fun b _ => hnonneg b (c.graph.tail a)) (mem_univ a)
  have hcap : c.netCap a ≤ (if c.graph.tail a = c.graph.tail a then c.netCap a else 0) +
      if c.graph.head a = c.graph.tail a then c.netCap a else 0 := by
    have := h.netCap_nonneg a
    rw [if_pos rfl]
    split_ifs <;> omega
  have hload := h.netLoad_le (c.graph.tail a)
  unfold netLoad at hload
  have habs := abs_nonneg (c.netSupply (c.graph.tail a))
  omega

/-- Bounds of a problem in range are not crossed and not too far apart. -/
theorem InRange.bounds (a : Fin c.arcs) (upper : Int) (hupper : c.upperAt a = some upper) :
    c.lowerAt a ≤ upper ∧ Width.bits64.Fits (upper - c.lowerAt a) := by
  have hle := h.ordered a upper hupper
  have hcap := h.netCap_le a
  simp only [netCap, spread, hupper, Option.map_some, Option.getD_some] at hcap
  have hlimit : Amount.loadLimit < Width.bits64.half := by decide
  exact ⟨hle, by omega, by omega⟩

/-- The capacity of arcs without an upper bound is not refused. -/
theorem InRange.madeUpCapacity {supply shifted : Table Int c.nodes}
    (hsupply : c.supplies = .ok supply) (hshifted : c.shiftedSupplies supply = .ok shifted) :
    ∃ madeUp, c.madeUpCapacity shifted = .ok madeUp ∧
      ∀ a : Fin c.arcs, (c.spread a).getD madeUp = c.netCap a := by
  have hthroughput : Amount.sum (shifted.toList.filter (0 < ·)) +
      Amount.sum (((List.finRange c.arcs).map c.spread).filterMap id) = c.netThroughput := by
    have hnet : ∀ v, max shifted[v] 0 = max (c.netSupply v) 0 :=
      fun v => by rw [netSupply_eq hsupply hshifted]
    show (List.filter _ _).sum + _ = _
    rw [sum_positive, sum_spreads, sum_congr rfl fun v _ => hnet v]
    rfl
  unfold Configuration.madeUpCapacity
  simp only [hthroughput]
  split
  · rename_i hany
    obtain ⟨_, hmem, hnone⟩ := List.any_eq_true.mp hany
    obtain ⟨a, -, rfl⟩ := List.mem_map.mp hmem
    have hcap := h.netCap_le a
    rw [netCap, Option.isNone_iff_eq_none.mp hnone, Option.getD_none] at hcap
    have hnonneg := h.netThroughput_nonneg
    have hlimit : Amount.loadLimit < Width.bits64.half := by decide
    exact ⟨_, Amount.checked_eq_ok.mpr ⟨⟨by omega, by omega⟩, rfl⟩, fun a => rfl⟩
  · rename_i hall
    refine ⟨0, rfl, fun a => ?_⟩
    have hsome : c.spread a ≠ none := by
      intro hnone
      refine hall (List.any_eq_true.mpr ⟨c.spread a, ?_, by simp [hnone]⟩)
      exact List.mem_map.mpr ⟨a, List.mem_finRange a, rfl⟩
    obtain ⟨x, hx⟩ := Option.ne_none_iff_exists'.mp hsome
    simp [netCap, hx]

end Range

section Preparation

variable {c}

theorem supplies_error {cause : Error} (h : c.supplies = .error cause) :
    cause = .arithmeticOverflow := by
  unfold supplies at h
  cases hsupply : c.supply with
  | zero =>
      simp only [hsupply] at h
      cases h
  | map map =>
      simp only [hsupply] at h
      cases h
  | single source target amount =>
      simp only [hsupply] at h
      rcases bind_eq_error.mp h with h | ⟨x, -, h⟩
      · exact Amount.checked_eq_error h
      · rcases bind_eq_error.mp h with h | ⟨y, -, h⟩
        · exact Amount.checked_eq_error h
        · cases h

theorem madeUpCapacity_error {supply : Table Int c.nodes} {cause : Error}
    (h : c.madeUpCapacity supply = .error cause) : cause = .arithmeticOverflow := by
  unfold madeUpCapacity at h
  simp only at h
  split at h
  · exact Amount.checked_eq_error h
  · cases h

variable [Cost α]

/-- The load of a node of the finite problem. -/
theorem load_toProblem {supply shifted : Table Int c.nodes} {madeUp : Int}
    (hsupply : c.supplies = .ok supply) (hshifted : c.shiftedSupplies supply = .ok shifted)
    (hmadeUp : ∀ a : Fin c.arcs, (c.spread a).getD madeUp = c.netCap a) (v : Fin c.nodes) :
    (c.load shifted (c.toProblem shifted madeUp).cap)[v] = c.netLoad v := by
  rw [load_eq, Problem.load, netLoad]
  simp [toProblem, netSupply_eq hsupply hshifted, hmadeUp]

/-- The preparation is refused only for an overflow. -/
theorem prepare_refuses : c.prepare.RefusesOnly (· = .arithmeticOverflow) := by
  refine (Logged.refusesOnly_ofExcept fun _ => supplies_error).bind fun supply _ => ?_
  split
  · exact Logged.refusesOnly_of_ok rfl
  · rintro cause ⟨⟩
    rfl
  · refine Logged.RefusesOnly.bind (fun cause h => ?_) fun total _ => ?_
    · rw [outcome_foldlM_liftM] at h
      obtain ⟨_, hcause, ⟨⟩⟩ := Logged.outcome_ofExcept_eq_error.mp h
      obtain ⟨x, -, sum, hx⟩ := exists_error_of_foldlM hcause
      exact Amount.checked_eq_error hx
    split
    · exact Logged.refusesOnly_of_ok rfl
    refine (Logged.refusesOnly_ofExcept fun _ => madeUpCapacity_error).bind fun madeUp _ => ?_
    simp only
    split
    · rintro cause ⟨⟩
      rfl
    · exact (Logged.refusesOnly_ofRun _).bind fun _ _ => Logged.refusesOnly_of_ok rfl

/-- No node of the finite problem is found that is loaded with more than the engines can gather
there. -/
theorem InRange.findIdx?_load (hrange : c.InRange) {supply shifted : Table Int c.nodes}
    {madeUp : Int}
    (hsupply : c.supplies = .ok supply) (hshifted : c.shiftedSupplies supply = .ok shifted)
    (hmadeUp : ∀ a : Fin c.arcs, (c.spread a).getD madeUp = c.netCap a) :
    (c.load shifted (c.toProblem shifted madeUp).cap).toList.findIdx? (Amount.loadLimit < ·) =
      none := by
  refine List.findIdx?_eq_none_iff.mpr fun x hx => ?_
  obtain ⟨v, rfl⟩ := mem_toList.mp hx
  rw [load_toProblem hsupply hshifted hmadeUp]
  simpa using hrange.netLoad_le v

/-- A problem in range whose running sums are counted is not refused before the finite problem is
made. -/
theorem InRange.prepare_refuses_nothing (hrange : c.InRange) (hsums : c.SumsCounted) :
    c.prepare.RefusesOnly fun _ => False := by
  obtain ⟨supply, hsupply⟩ := c.exists_supplies_iff.mpr hsums.given
  obtain ⟨shifted, hshifted⟩ := (exists_shiftedSupplies_iff hrange.bounds hsupply).mpr
    fun a => ⟨hsums.leaves a, hsums.enters a⟩
  have hcounted := hsums.total
  simp only [← netSupply_eq hsupply hshifted] at hcounted
  obtain ⟨total, htotal⟩ := (exists_total_iff shifted).mpr hcounted
  obtain ⟨madeUp, hmadeUp, hcap⟩ := hrange.madeUpCapacity hsupply hshifted
  have hlift : ∀ {β : Type} {x : Except Error β} {b : β}, x = .ok b →
      (Logged.ofExcept x).RefusesOnly fun _ => False := fun hx =>
    Logged.refusesOnly_of_ok (Logged.outcome_ofExcept_eq_ok.mpr hx)
  refine (hlift hsupply).bind fun supply' hsupply' => ?_
  obtain rfl : supply' = supply :=
    Except.ok.inj ((Logged.outcome_ofExcept_eq_ok.mp hsupply').symm.trans hsupply)
  rw [hshifted]
  refine Logged.RefusesOnly.bind (Logged.refusesOnly_of_ok (a := total) ?_) fun total' _ => ?_
  · rwa [outcome_foldlM_liftM, Logged.outcome_ofExcept_eq_ok]
  split
  · exact Logged.refusesOnly_of_ok rfl
  refine (hlift hmadeUp).bind fun madeUp' hmadeUp' => ?_
  obtain rfl : madeUp' = madeUp :=
    Except.ok.inj ((Logged.outcome_ofExcept_eq_ok.mp hmadeUp').symm.trans hmadeUp)
  simp only [hrange.findIdx?_load hsupply hshifted hcap]
  exact (Logged.refusesOnly_ofRun _).bind fun _ _ => Logged.refusesOnly_of_ok rfl

/-- The supplies of the finite problem are what is left of the given ones. -/
theorem supply_of_prepare {p : Problem c.nodes c.arcs (Cost.Wide α)}
    (h : c.prepare.outcome = .ok (some p)) (v : Fin c.nodes) : p.supply[v] = c.netSupply v := by
  obtain ⟨supply, shifted, madeUp, hsupply, hshifted, -, -, -, rfl⟩ := c.prepare_eq_some h
  exact netSupply_eq hsupply hshifted v

/-- A preparation that is not refused has counted all running sums, unless bounds are crossed. -/
theorem exists_total_of_prepare (hrange : c.InRange) (h : c.prepare.RefusesOnly fun _ => False) :
    ∃ supply shifted total, c.supplies = .ok supply ∧ c.shiftedSupplies supply = .ok shifted ∧
      shifted.toList.foldlM (fun sum x => Amount.checked (sum + x)) 0 = .ok total := by
  obtain ⟨supply, hsupply⟩ := (Logged.returns_ofExcept c.supplies).exists_ok h.left
  have hrest := h.right hsupply
  cases hshifted : c.shiftedSupplies supply with
  | error obstacle =>
      rw [hshifted] at hrest
      cases obstacle with
      | crossed arc lower upper =>
          obtain ⟨a, -, t, hstep⟩ := exists_error_of_foldlM hshifted
          obtain ⟨upper, hupper, hlt⟩ := takeOut_eq_crossed hstep
          exact absurd (hrange.ordered a upper hupper) (not_le.mpr hlt)
      | overflow => exact (hrest _ rfl).elim
  | ok shifted =>
      rw [hshifted] at hrest
      have htotal : (Logged.ofExcept (shifted.toList.foldlM
          (fun sum x => Amount.checked (sum + x)) 0)).RefusesOnly fun _ => False := by
        intro cause hcause
        rw [← outcome_foldlM_liftM] at hcause
        exact hrest.left cause hcause
      obtain ⟨total, htotal⟩ := (Logged.returns_ofExcept _).exists_ok htotal
      exact ⟨supply, shifted, total, Logged.outcome_ofExcept_eq_ok.mp hsupply, hshifted,
        Logged.outcome_ofExcept_eq_ok.mp htotal⟩

/-- A problem in range is refused before the finite problem is made exactly if a running sum is no
amount. -/
theorem sumsCounted_iff (hrange : c.InRange) :
    c.SumsCounted ↔ c.prepare.RefusesOnly fun _ => False := by
  refine ⟨hrange.prepare_refuses_nothing, fun h => ?_⟩
  obtain ⟨supply, shifted, total, hsupply, hshifted, htotal⟩ := exists_total_of_prepare hrange h
  have hmoved := (exists_shiftedSupplies_iff hrange.bounds hsupply).mp ⟨shifted, hshifted⟩
  have hcounted := (exists_total_iff shifted).mp ⟨total, htotal⟩
  simp only [netSupply_eq hsupply hshifted] at hcounted
  exact ⟨c.exists_supplies_iff.mp ⟨supply, hsupply⟩, fun a => (hmoved a).1, fun a => (hmoved a).2,
    hcounted⟩

/-- If no bounds are crossed, there is no finite problem only if the supplies do not cancel out. -/
theorem sum_ne_zero_of_prepare (hrange : c.InRange) (h : c.prepare.outcome = .ok none) :
    ∑ v, c.netSupply v ≠ 0 := by
  obtain ⟨supply, shifted, total, hsupply, hshifted, htotal⟩ :=
    exists_total_of_prepare hrange (Logged.refusesOnly_of_ok h)
  have hsum := sum_of_foldlM_checked htotal
  rw [sum_toList, sum_congr rfl fun v _ => netSupply_eq hsupply hshifted v, zero_add] at hsum
  rw [← hsum]
  unfold prepare at h
  obtain ⟨supply', hsupply', h⟩ := Logged.outcome_bind_eq_ok.mp h
  obtain rfl : supply' = supply :=
    Except.ok.inj ((Logged.outcome_ofExcept_eq_ok.mp hsupply').symm.trans hsupply)
  rw [hshifted] at h
  obtain ⟨total', htotal', h⟩ := Logged.outcome_bind_eq_ok.mp h
  rw [outcome_foldlM_liftM, Logged.outcome_ofExcept_eq_ok] at htotal'
  obtain rfl : total' = total := Except.ok.inj (htotal'.symm.trans htotal)
  split at h
  · assumption
  · obtain ⟨madeUp, -, h⟩ := Logged.outcome_bind_eq_ok.mp h
    simp only at h
    split at h
    · cases h
    · obtain ⟨_, -, h⟩ := Logged.outcome_bind_eq_ok.mp h
      cases h

end Preparation

end Configuration

namespace Solver

variable {w cw : Width}

/-- Artificial arcs of problems with costs of 32 or of 64 bits cost no more than fits. -/
theorem artificial_fits (hcost : cw ≠ .bits128) {n : Nat} (hnodes : n < 2 ^ 31) :
    ((n : Int) + 1) * (cw.half + 1) < cw.wider.half := by
  have hn : (n : Int) + 1 ≤ 2 ^ 31 := by omega
  refine lt_of_le_of_lt (mul_le_mul_of_nonneg_right hn (by omega)) ?_
  cases cw with
  | bits32 => decide
  | bits64 => decide
  | bits128 => exact absurd rfl hcost

/-- A run is refused as its preparation or the engine is. -/
theorem refusesOnly_run_iff {s : Solver w (Word cw)} {fuel : Nat} {causes : Error → Prop} :
    ((run fuel).run s).1.RefusesOnly causes ↔ s.config.prepare.RefusesOnly causes ∧
      ∀ p, s.config.prepare.outcome = .ok (some p) → (s.method.solve fuel p).RefusesOnly causes := by
  have hsolve : ((run fuel).run s).1.RefusesOnly causes ↔
      (s.config.solve fuel s.method).RefusesOnly causes := by
    unfold Logged.RefusesOnly
    rw [outcome_run]
    cases (s.config.solve fuel s.method).outcome <;> simp [Except.map]
  rw [hsolve]
  constructor
  · intro h
    exact ⟨h.left, fun p hp => Logged.RefusesOnly.left (h.right hp)⟩
  · rintro ⟨hprepare, hengine⟩
    refine hprepare.bind fun prepared hp => ?_
    cases prepared with
    | none => exact Logged.refusesOnly_of_ok rfl
    | some p => exact (hengine p hp).bind fun _ _ => Logged.refusesOnly_ofRun _

/-- Whatever the method and the fuel are, the run over a problem in range, with costs of 32 or of 64
bits, is refused exactly if a sum that is formed on the way is no amount: the supplies as they are
given, as the lower bounds are moved into them one after the other, as they are added up node by
node, or, only for cost scaling and if they cancel out, all those that are positive. Cost scaling
gets to these only if the preparation returns: a distance over the arcs without an upper bound that
leaves the range ends the run before. -/
theorem refuses_nothing_iff (s : Solver w (Word cw)) (fuel : Nat) (hcost : cw ≠ .bits128)
    (hnodes : s.config.nodes < 2 ^ 31) (hrange : s.config.InRange) :
    ((run fuel).run s).1.RefusesOnly (fun _ => False) ↔
      s.config.SumsCounted ∧ (s.algorithm = .costScaling → s.config.prepare.Returns →
        ∑ v, s.config.netSupply v = 0 → ∑ v, max (s.config.netSupply v) 0 ≤ Amount.largest) := by
  rw [Configuration.sumsCounted_iff hrange, refusesOnly_run_iff]
  refine and_congr_right fun hprepare => ?_
  have hengine : ∀ p, s.config.prepare.outcome = .ok (some p) →
      (((s.method.solve fuel p).RefusesOnly fun _ => False) ↔ (s.algorithm = .costScaling →
        ∑ v, max (s.config.netSupply v) 0 ≤ Amount.largest)) := by
    intro p hp
    rw [← sum_congr rfl fun v _ => congrArg (max · 0) (Configuration.supply_of_prepare hp v)]
    exact Method.solve_refuses_nothing_iff (s.config.prepared_of_prepare hp)
      (fun a => by
        rw [Configuration.val_cost_of_prepare hp]
        exact s.config.abs_costAt_le a)
      (Int.natCast_nonneg _) (artificial_fits hcost hnodes)
  constructor
  · intro h hscaling hreturns hsum
    obtain ⟨_ | p, hp⟩ := hreturns.exists_ok hprepare
    · exact absurd hsum (Configuration.sum_ne_zero_of_prepare hrange hp)
    · exact (hengine p hp).mp (h p hp) hscaling
  · intro h p hp
    refine (hengine p hp).mpr fun hscaling => h hscaling (Logged.returns_of_ok hp) ?_
    rw [← sum_congr rfl fun v _ => Configuration.supply_of_prepare hp v]
    exact (s.config.prepared_of_prepare hp).sum_supply

/-- A run over `parallelArcs`, which is in range, is not refused. -/
theorem refuses_nothing_parallelArcs :
    parallelSolver.config.InRange ∧ parallelSolver.config.SumsCounted ∧
      ((run 20).run parallelSolver).1.RefusesOnly fun _ => False := by
  have hrange : Configuration.parallelArcs.InRange := by
    have hbounds : ∀ a, Configuration.parallelArcs.lowerAt a = 0 ∧
        (Configuration.parallelArcs.upperAt a).all (0 ≤ ·) = true := by
      with_unfolding_all decide
    refine ⟨fun a upper hupper => ?_, by with_unfolding_all decide⟩
    obtain ⟨hlower, hall⟩ := hbounds a
    rw [hupper] at hall
    rw [hlower]
    simpa using hall
  have hsums : Configuration.parallelArcs.SumsCounted :=
    (Configuration.sumsCounted_iff hrange).mpr
      (Logged.refusesOnly_of_ok Configuration.prepare_parallelArcs)
  exact ⟨hrange, hsums, (refuses_nothing_iff parallelSolver 20 (by decide) (by decide) hrange).mpr
    ⟨hsums, fun hscaling => by cases hscaling⟩⟩

/-- Two nodes with two arcs there and two arcs back. Five million million million units must take
each arc, so none is supplied and none can be added. -/
def roundabout : Configuration .bits64 (Word .bits64) where
  graph := roundTrip.graph
  lower := some { graph := ⟨0⟩, values := #[quota, quota, quota, quota], fill := default }
  upper := some { graph := ⟨0⟩, values := #[quota, quota, quota, quota], fill := default }
where
  quota : Word .bits64 := ⟨5000000000000000000, by decide⟩

/-- No node of `roundabout` is loaded at all, and still no method answers it: the bounds of the arcs
there are taken out of the first node before those of the arcs back are brought in. -/
theorem roundabout_refused :
    roundabout.nodes < 2 ^ 31 ∧ roundabout.InRange ∧ (∀ v, roundabout.netLoad v = 0) ∧
      ∀ (method : Method) (fuel : Nat),
        ((run fuel).run { config := roundabout, method := method }).1.outcome =
          .error (.refused .arithmeticOverflow) := by
  have hload : ∀ v, roundabout.netLoad v = 0 := by
    with_unfolding_all decide
  have hbounds : ∀ a, roundabout.upperAt a = some (roundabout.lowerAt a) := by
    with_unfolding_all decide
  have hprepare : roundabout.prepare.outcome = .error (.refused .arithmeticOverflow) := by
    with_unfolding_all rfl
  refine ⟨by decide, ⟨fun a upper hupper => ?_, fun v => ?_⟩, hload, fun method fuel => ?_⟩
  · obtain rfl : roundabout.lowerAt a = upper := Option.some.inj ((hbounds a).symm.trans hupper)
    exact le_rfl
  · rw [hload]
    decide
  · rw [outcome_run, Configuration.outcome_solve_of_error hprepare]
    rfl

end Solver

end NetworkFlow
