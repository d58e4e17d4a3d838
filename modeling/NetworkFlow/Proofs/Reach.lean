import Mathlib.Data.Fintype.Card
import Mathlib.Data.Fintype.Pigeonhole
import Mathlib.Logic.Relation
import NetworkFlow.Proofs.Flow

/-!
# What residual arcs reach

The nodes that the open residual arcs of a flow reach from a node form a set that
no residual arc leaves, so a flow carries as much as possible out of it. And each
of them is reached in fewer steps than there are nodes, so a quantity that rises
by little at every step is not much larger there: this bounds labels, potentials
and the costs of paths alike.

## Main results

* `exists_short_walk`: what is reached at all is reached in fewer than `n` steps.
* `le_add_of_reaches`: a bound for what rises by at most `c` at every step.
* `closed_reachable`: no residual arc leaves the set of nodes reached.
-/

namespace NetworkFlow

open Relation

variable {n m : Nat}

/-- A walk that repeats a node can be shortened. -/
private theorem exists_shorter_walk {R : Fin n → Fin n → Prop} {k : Nat} {x : Nat → Fin n}
    (hstep : ∀ i < k, R (x i) (x (i + 1))) (hk : n ≤ k) :
    ∃ k' < k, ∃ y : Nat → Fin n, y 0 = x 0 ∧ y k' = x k ∧ ∀ i < k', R (y i) (y (i + 1)) := by
  have hcard : Fintype.card (Fin n) < Fintype.card (Fin (k + 1)) := by
    simp only [Fintype.card_fin]
    omega
  obtain ⟨i, j, hij, hx⟩ :=
    Fintype.exists_ne_map_eq_of_card_lt (fun i : Fin (k + 1) => x i) hcard
  -- of the two places of the repeated node, the first comes first
  obtain ⟨i, j, hlt, hj, hx⟩ : ∃ i j : Nat, i < j ∧ j ≤ k ∧ x i = x j := by
    rcases lt_or_gt_of_ne (fun h => hij (Fin.ext h) : i.val ≠ j.val) with h | h
    · exact ⟨i, j, h, by omega, hx⟩
    · exact ⟨j, i, h, by omega, hx.symm⟩
  refine ⟨k - (j - i), by omega, fun l => if l ≤ i then x l else x (l + (j - i)), ?_, ?_, ?_⟩
  · simp
  · by_cases h : k - (j - i) ≤ i
    · have hkj : k = j := by omega
      have hki : k - (j - i) = i := by omega
      simp only [h, if_true]
      rw [hki, hkj, hx]
    · simp only [h, if_false]
      congr 1
      omega
  · intro l hl
    by_cases h : l + 1 ≤ i
    · have h' : l ≤ i := by omega
      simp only [h, h', if_true]
      exact hstep l (by omega)
    · by_cases h' : l ≤ i
      · obtain rfl : l = i := by omega
        simp only [h, h', if_true, if_false, hx]
        have hnext : l + 1 + (j - l) = j + 1 := by omega
        rw [hnext]
        exact hstep j (by omega)
      · simp only [h, h', if_false]
        have hnext : l + 1 + (j - i) = l + (j - i) + 1 := by omega
        rw [hnext]
        exact hstep _ (by omega)

/-- What is reached at all is reached in fewer steps than there are nodes. -/
theorem exists_short_walk {R : Fin n → Fin n → Prop} {u v : Fin n} (h : ReflTransGen R u v) :
    ∃ k < n, ∃ x : Nat → Fin n, x 0 = u ∧ x k = v ∧ ∀ i < k, R (x i) (x (i + 1)) := by
  have hwalk : ∃ k, ∃ x : Nat → Fin n, x 0 = u ∧ x k = v ∧ ∀ i < k, R (x i) (x (i + 1)) := by
    induction h with
    | refl => exact ⟨0, fun _ => u, rfl, rfl, fun i hi => absurd hi (by omega)⟩
    | @tail b c _ hbc ih =>
        obtain ⟨k, x, h0, hk, hx⟩ := ih
        refine ⟨k + 1, fun i => if i ≤ k then x i else c, by simp [h0], by simp, ?_⟩
        intro i hi
        by_cases hik : i + 1 ≤ k
        · have hik' : i ≤ k := by omega
          simp only [hik, hik', if_true]
          exact hx i (by omega)
        · obtain rfl : i = k := by omega
          simp only [le_refl, hik, if_true, if_false, hk]
          exact hbc
  classical
  obtain ⟨x, h0, hk, hx⟩ := Nat.find_spec hwalk
  refine ⟨Nat.find hwalk, ?_, x, h0, hk, hx⟩
  by_contra hn
  obtain ⟨k', hlt, y, hy0, hyk, hy⟩ := exists_shorter_walk hx (by omega)
  exact Nat.find_min hwalk hlt ⟨y, by rw [hy0, h0], by rw [hyk, hk], hy⟩

/-- What rises by at most `c` at every step rises by less than `n` times as much in all. -/
theorem le_add_of_reaches {R : Fin n → Fin n → Prop} {f : Fin n → Int} {c : Int} (hc : 0 ≤ c)
    (hstep : ∀ u v, R u v → f v ≤ f u + c) {u v : Fin n} (h : ReflTransGen R u v) :
    f v ≤ f u + ((n : Int) - 1) * c := by
  obtain ⟨k, hk, x, rfl, rfl, hx⟩ := exists_short_walk h
  have hrise : ∀ i ≤ k, f (x i) ≤ f (x 0) + (i : Int) * c := by
    intro i
    induction i with
    | zero => simp
    | succ i ih =>
        intro hi
        have h₁ := ih (by omega)
        have h₂ := hstep _ _ (hx i (by omega))
        push_cast
        rw [add_mul, one_mul]
        omega
  have hmul : (k : Int) * c ≤ ((n : Int) - 1) * c := by
    apply mul_le_mul_of_nonneg_right _ hc
    omega
  have := hrise k le_rfl
  omega

/-- What is reached from a node is a set of nodes. -/
theorem exists_reached (R : Fin n → Fin n → Prop) (u : Fin n) :
    ∃ nodes : Finset (Fin n), ∀ v, v ∈ nodes ↔ ReflTransGen R u v := by
  classical
  exact ⟨Finset.univ.filter (ReflTransGen R u), by simp⟩

namespace Network

variable (net : Network n m) (flow : Table Int m)

/-- Some residual arc with room leads from one node to another one. -/
def Open (u v : Fin n) : Prop :=
  ∃ r, 0 < net.room flow r ∧ net.source r = u ∧ net.target r = v

/-- Some residual arc along which a flow has to change to become another one leads from one node
to another one. -/
def Toward (other : Table Int m) (u v : Fin n) : Prop :=
  ∃ r, net.room other r < net.room flow r ∧ net.source r = u ∧ net.target r = v

open Classical in
/-- The nodes that residual arcs with room reach from a node. -/
noncomputable def reachable (s : Fin n) : Finset (Fin n) :=
  {v | ReflTransGen (net.Open flow) s v}

variable {net flow}

theorem Toward.toOpen {other : Table Int m} {u v : Fin n} (h : net.Toward flow other u v)
    (hother : net.Within other) : net.Open flow u v := by
  obtain ⟨r, hless, hsource, htarget⟩ := h
  exact ⟨r, (hother.room_nonneg r).trans_lt hless, hsource, htarget⟩

theorem mem_reachable {s v : Fin n} :
    v ∈ net.reachable flow s ↔ ReflTransGen (net.Open flow) s v := by
  simp [reachable]

theorem self_mem_reachable (s : Fin n) : s ∈ net.reachable flow s :=
  mem_reachable.mpr ReflTransGen.refl

theorem closed_reachable (s : Fin n) : net.Closed flow (net.reachable flow s) := by
  intro r hroom hr
  rw [mem_reachable] at hr ⊢
  exact hr.tail ⟨r, hroom, rfl, rfl⟩

end Network

end NetworkFlow
