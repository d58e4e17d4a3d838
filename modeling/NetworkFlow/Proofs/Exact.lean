import NetworkFlow.Proofs.Walk

/-!
# Costs that are exact integers

The engines compute costs in any `Scalar`. What they are proved to do, they are
proved to do with the integers themselves: `ExactCosts` says that the scalar in
use is `Scalar.exact` for some width. The width matters only to the checked
products, which refuse what leaves its range.

The lemmas here replace the operations of the scalar by those of the integers,
one lemma for each quantity that the engines compute. Everything after them is
integer arithmetic. Words compute what the integers do as long as the result fits.

## Main results

* `residualCost_eq`, `reducedCost_eq`: prices and reduced costs of residual arcs.
* `certifies_iff`: potentials certify a flow if no residual arc with room has a
  negative reduced cost.
* `magnitude_le_maxMagnitude`: no cost exceeds the largest one.
-/

namespace NetworkFlow

section Words

variable {w : Width}

theorem word_lt_iff {x y : Word w} : x < y ↔ x.val < y.val := Iff.rfl

theorem val_zero : (0 : Word w).val = 0 := rfl

/-- A count that fits is itself. -/
theorem val_ofCount {k : Nat} (h : (k : Int) < w.half) : (Scalar.ofCount k : Word w).val = k := by
  show (Word.clamp (k : Int) : Word w).val = k
  rw [Word.clamp_of_fits ⟨by omega, h⟩]

theorem val_ofCount_succ {n : Nat} (h : (n : Int) + 1 < w.half) :
    (Scalar.ofCount (n + 1) : Word w).val = n + 1 := by
  rw [val_ofCount (by push_cast; exact h)]
  push_cast
  rfl

end Words

/-- The scalar in use computes with integers, without rounding or wrapping. -/
class ExactCosts extends Scalar Int where
  width : Width
  exact_eq : toScalar = Scalar.exact width

namespace ExactCosts

/-- The exact arithmetic of a width. -/
@[reducible] def ofWidth (w : Width) : ExactCosts where
  toScalar := Scalar.exact w
  width := w
  exact_eq := rfl

/-- The zero of the integers is their own also where a scalar is in use. -/
scoped instance (priority := high) instZeroInt : Zero Int := inferInstance

/-- The one of the integers is their own also where a scalar is in use. -/
scoped instance (priority := high) instOneInt : One Int := inferInstance

end ExactCosts

open scoped ExactCosts

variable {n m : Nat} [inst : ExactCosts]

theorem scalar_lt_iff (x y : Int) : @LT.lt Int inst.toLT x y ↔ x < y := by
  obtain ⟨w, h⟩ := inst
  subst h
  exact Iff.rfl

theorem scalar_le_iff (x y : Int) : @LE.le Int inst.toLE x y ↔ x ≤ y := by
  obtain ⟨w, h⟩ := inst
  subst h
  exact Iff.rfl

theorem scalar_neg_eq (x : Int) : @Neg.neg Int inst.toNeg x = -x := by
  obtain ⟨w, h⟩ := inst
  subst h
  rfl

theorem scalar_add_eq (x y : Int) : @HAdd.hAdd Int Int Int (@instHAdd Int inst.toAdd) x y = x + y := by
  obtain ⟨w, h⟩ := inst
  subst h
  rfl

theorem scalar_sub_eq (x y : Int) : @HSub.hSub Int Int Int (@instHSub Int inst.toSub) x y = x - y := by
  obtain ⟨w, h⟩ := inst
  subst h
  rfl

theorem scalar_zero_eq : @OfNat.ofNat Int 0 (@Zero.toOfNat0 Int inst.toZero) = 0 := by
  obtain ⟨w, h⟩ := inst
  subst h
  rfl

theorem scalar_one_eq : @OfNat.ofNat Int 1 (@One.toOfNat1 Int inst.toOne) = 1 := by
  obtain ⟨w, h⟩ := inst
  subst h
  rfl

theorem ofCount_eq (k : Nat) : (Scalar.ofCount k : Int) = k := by
  obtain ⟨w, h⟩ := inst
  subst h
  rfl

theorem finest_eq (x : Int) : Scalar.finest x = 1 := by
  obtain ⟨w, h⟩ := inst
  subst h
  rfl

/-- Integers have no range to leave. -/
theorem fits_exact (op : CostOperation Int) : Scalar.fits op = true := by
  obtain ⟨w, h⟩ := inst
  subst h
  rfl

@[simp] theorem checked_exact {β : Type} (operations : List (CostOperation Int)) (result : β) :
    Scalar.checked operations result = .ok result :=
  Scalar.checked_of_fits fun op _ => fits_exact op

@[simp] theorem inRange_exact (operations : List (CostOperation Int)) :
    Scalar.inRange operations = .ok () :=
  checked_exact operations ()

/-- A checked product that is not refused is the product. -/
theorem eq_mul_of_mul? {x y z : Int} (h : Scalar.mul? x y = some z) : z = x * y := by
  obtain ⟨w, hw⟩ := inst
  subst hw
  change (if w.Fits (x * y) then some (x * y) else none) = some z at h
  split at h
  · exact (Option.some.inj h).symm
  · cases h

/-- A checked product of words is that of the integers that they stand for. -/
theorem mul?_val {w : Width} (hwidth : inst.width = w) (x y : Word w) :
    Scalar.mul? x.val y.val = (Scalar.mul? x y).map (·.val) := by
  obtain ⟨w', hw⟩ := inst
  subst hw hwidth
  show (if w'.Fits (x.val * y.val) then some (x.val * y.val) else none) =
    (Word.ofInt? (x.val * y.val) : Option (Word w')).map (·.val)
  unfold Word.ofInt?
  split <;> rfl

theorem magnitude_eq (x : Int) : Scalar.magnitude x = |x| := by
  obtain ⟨w, h⟩ := inst
  subst h
  show (if x < 0 then -x else x) = |x|
  split
  · rw [abs_of_neg ‹_›]
  · rw [abs_of_nonneg (by omega)]

theorem maxMagnitude_eq (start : Int) (xs : List Int) :
    Scalar.maxMagnitude start xs = xs.foldl (fun acc x => max acc |x|) start := by
  have hstep : ∀ acc x : Int, (if acc < |x| then |x| else acc) = max acc |x| := by
    intro acc x
    rcases lt_or_ge acc |x| with h | h
    · rw [if_pos h, max_eq_right h.le]
    · rw [if_neg (by omega), max_eq_left h]
  unfold Scalar.maxMagnitude
  congr 1
  funext acc x
  rw [← hstep, magnitude_eq]
  exact if_congr (scalar_lt_iff _ _) rfl rfl

omit inst in
private theorem le_foldl_max (xs : List Int) :
    ∀ start : Int, start ≤ xs.foldl (fun acc x => max acc |x|) start ∧
      ∀ x ∈ xs, |x| ≤ xs.foldl (fun acc x => max acc |x|) start := by
  induction xs with
  | nil =>
      intro start
      simp
  | cons y ys ih =>
      intro start
      obtain ⟨hstart, hmem⟩ := ih (max start |y|)
      rw [List.foldl_cons]
      refine ⟨le_trans (le_max_left _ _) hstart, fun x hx => ?_⟩
      rcases List.mem_cons.mp hx with rfl | hx
      · exact le_trans (le_max_right _ _) hstart
      · exact hmem x hx

/-- The largest magnitude is at least the one it starts from. -/
theorem le_maxMagnitude (start : Int) (xs : List Int) :
    start ≤ Scalar.maxMagnitude start xs := by
  rw [maxMagnitude_eq]
  exact (le_foldl_max xs start).1

/-- No magnitude exceeds the largest one. -/
theorem magnitude_le_maxMagnitude (start : Int) {xs : List Int} {x : Int} (hx : x ∈ xs) :
    |x| ≤ Scalar.maxMagnitude start xs := by
  rw [maxMagnitude_eq]
  exact (le_foldl_max xs start).2 x hx

/-- The largest magnitude is no larger than what is larger than all of them. -/
theorem maxMagnitude_le {start top : Int} {xs : List Int} (hstart : start ≤ top)
    (hxs : ∀ x ∈ xs, |x| ≤ top) : Scalar.maxMagnitude start xs ≤ top := by
  rw [maxMagnitude_eq]
  induction xs generalizing start with
  | nil => exact hstart
  | cons x xs ih =>
      exact ih (max_le hstart (hxs x (by simp))) fun y hy => hxs y (by simp [hy])

theorem residualCost_eq (cost : Table Int m) (r : ResidualArc m) :
    Problem.residualCost cost r = r.price cost := by
  obtain ⟨w, h⟩ := inst
  subst h
  rfl

theorem reducedCost_eq (p : Problem n m Int) (cost : Table Int m) (potential : Table Int n)
    (r : ResidualArc m) : p.reducedCost cost potential r = p.reduced cost potential r := by
  obtain ⟨w, h⟩ := inst
  subst h
  rfl

omit inst in
/-- Potentials certify a flow if no residual arc with room has a negative reduced cost. -/
theorem certifies_iff (p : Problem n m Int) (flow : Table Int m) (potential : Table Int n) :
    p.Certifies flow potential ↔
      ∀ r, 0 < p.room flow r → 0 ≤ p.reduced p.cost potential r := by
  constructor
  · intro h r hroom
    obtain ⟨a, backward⟩ := r
    obtain ⟨hraise, hlower⟩ := h a
    cases backward
    · rw [p.room_forward] at hroom
      exact hraise (by omega)
    · rw [p.room_backward] at hroom
      have := hlower hroom
      show 0 ≤ -p.cost[a] + potential[p.head[a]] - potential[p.tail[a]]
      omega
  · intro h a
    constructor
    · intro hlt
      exact h ⟨a, false⟩ (by rw [p.room_forward]; omega)
    · intro hpos
      have := h ⟨a, true⟩ (by rw [p.room_backward]; exact hpos)
      change 0 ≤ -p.cost[a] + potential[p.head[a]] - potential[p.tail[a]] at this
      omega

end NetworkFlow
