import NetworkFlow.Proofs.Exact
import NetworkFlow.Proofs.Prepared

/-!
# Operations on costs

What an engine computes with words is arithmetic as long as every single result fits: an operation
that `Fits` gives the word that stands for the integer it should give. So a quantity on words is
the one on integers if all operations that lead to it fit. They do if the numbers that they are
applied to are bounded.

## Main results

* `CostOperation.val_result`: an operation that fits is exact.
* `val_maxMagnitude`, `Problem.val_reducedCost`: what is computed by operations that fit.
* `magnitudeOperations_fit`, `Problem.reducedCostOperations_fit`: bounds for which they fit.
-/

namespace NetworkFlow

open scoped ExactCosts

namespace CostOperation

/-- What the operation gives. -/
def result {α : Type} [Scalar α] : CostOperation α → α
  | neg x => -x
  | add x y => x + y
  | sub x y => x - y
  | mul x y => x * y
  | div x y => x / y

variable {w : Width}

/-- An operation that fits is exact. -/
theorem val_result {op : CostOperation (Word w)} (h : op.Fits) : op.result.val = op.exact := by
  cases op with
  | neg x => exact congrArg Word.val (Word.wrap_of_fits h)
  | add x y => exact congrArg Word.val (Word.wrap_of_fits h)
  | sub x y => exact congrArg Word.val (Word.wrap_of_fits h)
  | mul x y => exact congrArg Word.val (Word.wrap_of_fits h)
  | div x y => exact congrArg Word.val (Word.wrap_of_fits h.2)

variable {x y : Word w}

theorem val_neg (h : Fits (.neg x)) : (-x).val = -x.val := val_result h

theorem val_add (h : Fits (.add x y)) : (x + y).val = x.val + y.val := val_result h

theorem val_sub (h : Fits (.sub x y)) : (x - y).val = x.val - y.val := val_result h

theorem val_div (h : Fits (.div x y)) : (x / y).val = x.val.tdiv y.val := val_result h

end CostOperation

/-- An integer that is less than half the number of values away from zero fits. -/
theorem Width.fits_of_abs_lt {w : Width} {x : Int} (h : |x| < w.half) : w.Fits x := by
  rw [abs_lt] at h
  exact ⟨h.1.le, h.2⟩

/-- The negative of a word fits unless the word is the smallest one. -/
theorem CostOperation.fits_neg {w : Width} {x : Word w} {top : Int} (hx : |x.val| ≤ top)
    (hfits : top < w.half) : Fits (.neg x) :=
  Width.fits_of_abs_lt (x := -x.val) (by rw [abs_neg]; omega)

theorem CostOperation.fits_neg_of_val {w : Width} {x : Word w} (hx : x.val = 0) :
    Fits (.neg x) := by
  show w.Fits (-x.val)
  rw [hx, neg_zero]
  exact w.fits_zero

section Magnitudes

variable {w : Width} {xs : List (Word w)} {top : Int}

theorem val_magnitude {x : Word w} (h : x < 0 → CostOperation.Fits (.neg x)) :
    (Scalar.magnitude x).val = |x.val| := by
  unfold Scalar.magnitude
  split
  · rename_i hlt
    rw [CostOperation.val_neg (h hlt), abs_of_neg hlt]
  · rename_i hlt
    rw [abs_of_nonneg (not_lt.mp hlt)]

/-- The largest magnitude on words is the one on integers. -/
theorem val_maxMagnitude [ExactCosts] (h : ∀ op ∈ Scalar.magnitudeOperations xs, op.Fits)
    (start : Word w) : (Scalar.maxMagnitude start xs).val =
      Scalar.maxMagnitude start.val (xs.map (·.val)) := by
  have hmagnitude : ∀ x ∈ xs, (Scalar.magnitude x).val = |x.val| := fun x hx =>
    val_magnitude fun hlt => h _ (by simpa [Scalar.magnitudeOperations, hlt] using hx)
  rw [maxMagnitude_eq]
  clear h
  induction xs generalizing start with
  | nil => rfl
  | cons x xs ih =>
      have hx := hmagnitude x (by simp)
      have hstep : (if start < Scalar.magnitude x then Scalar.magnitude x else start).val =
          max start.val |x.val| := by
        simp only [word_lt_iff, hx]
        split
        · rw [hx, max_eq_right (by omega)]
        · rw [max_eq_left (by omega)]
      show (Scalar.maxMagnitude _ xs).val = _
      rw [ih _ fun y hy => hmagnitude y (by simp [hy]), hstep]
      rfl

/-- The largest magnitude of a table of words is the one of the integers that they stand for. -/
theorem val_maxMagnitude_table [ExactCosts] {m : Nat} {cost : Table (Word w) m}
    (h : ∀ op ∈ Scalar.magnitudeOperations cost.toList, op.Fits) :
    (Scalar.maxMagnitude 0 cost.toList).val =
      Scalar.maxMagnitude 0 (cost.map (·.val)).toList := by
  rw [val_maxMagnitude h, val_zero, Table.toList, Table.toList, Table.map, Vector.toList_map]

section Bounded

variable {m : Nat} {cost : Table (Word w) m} (hcost : ∀ a : Fin m, |cost[a].val| ≤ top)
  (htop : top < w.half)

include hcost htop

/-- What it takes to find the largest magnitude fits if all magnitudes do. -/
theorem magnitudeOperations_fit : ∀ op ∈ Scalar.magnitudeOperations cost.toList, op.Fits := by
  intro op hop
  obtain ⟨x, hx, rfl⟩ := List.mem_map.mp hop
  obtain ⟨a, rfl⟩ := mem_toList.mp (List.mem_of_mem_filter hx)
  exact CostOperation.fits_neg (hcost a) htop

theorem abs_le_val_maxMagnitude (a : Fin m) :
    |cost[a].val| ≤ (Scalar.maxMagnitude 0 cost.toList).val := by
  let _ := ExactCosts.ofWidth w
  have hmem := getElem_mem_toList (cost.map (·.val)) a
  rw [Table.getElem_map] at hmem
  rw [val_maxMagnitude_table (magnitudeOperations_fit hcost htop)]
  exact magnitude_le_maxMagnitude 0 hmem

theorem val_maxMagnitude_nonneg : 0 ≤ (Scalar.maxMagnitude 0 cost.toList).val := by
  let _ := ExactCosts.ofWidth w
  rw [val_maxMagnitude_table (magnitudeOperations_fit hcost htop)]
  exact le_maxMagnitude 0 _

theorem val_maxMagnitude_le (hnonneg : 0 ≤ top) :
    (Scalar.maxMagnitude 0 cost.toList).val ≤ top := by
  let _ := ExactCosts.ofWidth w
  rw [val_maxMagnitude_table (magnitudeOperations_fit hcost htop)]
  refine maxMagnitude_le hnonneg fun x hx => ?_
  obtain ⟨a, rfl⟩ := mem_toList.mp hx
  rw [Table.getElem_map]
  exact hcost a

end Bounded

end Magnitudes

/-- The answer with its potentials read as integers. -/
def Outcome.exact {n m : Nat} {w : Width} : Outcome n m (Word w) → Outcome n m Int
  | .infeasible => .infeasible
  | .unbounded => .unbounded
  | .feasible flow potential => .feasible flow (potential.map (·.val))

section Prices

variable {n m : Nat} {w : Width} {p : Problem n m (Word w)} {cost : Table (Word w) m}
  {potential : Table (Word w) n} {r : ResidualArc m} {top low : Int}

/-- The cost of a residual arc, if the operation that it takes fits. -/
theorem val_residualCost (h : ∀ op ∈ Problem.priceOperations cost r, op.Fits) :
    (Problem.residualCost cost r).val = r.price (cost.map (·.val)) := by
  unfold Problem.priceOperations at h
  unfold Problem.residualCost ResidualArc.price
  rw [Table.getElem_map]
  split at h
  · rename_i hback
    rw [if_pos hback, if_pos hback, CostOperation.val_neg (h _ (by simp))]
  · rename_i hback
    rw [if_neg hback, if_neg hback]

/-- The reduced cost of a residual arc, if the operations that it takes fit. -/
theorem Problem.val_reducedCost
    (h : ∀ op ∈ p.reducedCostOperations cost potential r, op.Fits) :
    (p.reducedCost cost potential r).val =
      p.exact.reduced (cost.map (·.val)) (potential.map (·.val)) r := by
  unfold Problem.reducedCostOperations at h
  obtain ⟨hprice, hrest⟩ := List.forall_mem_append.mp h
  have hadd := CostOperation.val_add (hrest _ List.mem_cons_self)
  have hsub := CostOperation.val_sub (hrest _ (List.mem_cons_of_mem _ List.mem_cons_self))
  unfold Problem.reducedCost Network.reduced
  rw [hsub, hadd, val_residualCost hprice, Table.getElem_map, Table.getElem_map]
  rfl

theorem abs_price_map_le (htop : ∀ a : Fin m, |cost[a].val| ≤ top) :
    |r.price (cost.map (·.val))| ≤ top := by
  apply abs_price_le
  intro a
  rw [Table.getElem_map]
  exact htop a

theorem priceOperations_fit (htop : ∀ a : Fin m, |cost[a].val| ≤ top) (hfits : top < w.half) :
    ∀ op ∈ Problem.priceOperations cost r, op.Fits := by
  intro op hop
  unfold Problem.priceOperations at hop
  split at hop
  · obtain rfl := List.mem_singleton.mp hop
    exact CostOperation.fits_neg (htop r.arc) hfits
  · cases hop

/-- What is computed for a reduced cost fits if costs and potentials leave room for it. -/
theorem Problem.reducedCostOperations_fit (htop : ∀ a : Fin m, |cost[a].val| ≤ top)
    (hlow : ∀ v : Fin n, -low ≤ potential[v].val ∧ potential[v].val ≤ 0)
    (hfits : top + low < w.half) :
    ∀ op ∈ p.reducedCostOperations cost potential r, op.Fits := by
  have hsource := hlow (p.source r)
  have htarget := hlow (p.target r)
  have hprice := abs_le.mp (abs_price_map_le (r := r) htop)
  have hturn : ∀ op ∈ Problem.priceOperations cost r, op.Fits :=
    priceOperations_fit htop (by omega)
  have hsum : CostOperation.Fits (.add (Problem.residualCost cost r) potential[p.source r]) := by
    show w.Fits ((Problem.residualCost cost r).val + potential[p.source r].val)
    rw [val_residualCost hturn]
    exact ⟨by omega, by omega⟩
  have hdifference : CostOperation.Fits (.sub (Problem.residualCost cost r +
      potential[p.source r]) potential[p.target r]) := by
    show w.Fits ((Problem.residualCost cost r + potential[p.source r]).val -
      potential[p.target r].val)
    rw [CostOperation.val_add hsum, val_residualCost hturn]
    exact ⟨by omega, by omega⟩
  refine List.forall_mem_append.mpr ⟨hturn, ?_⟩
  simp [hsum, hdifference]

end Prices

end NetworkFlow
