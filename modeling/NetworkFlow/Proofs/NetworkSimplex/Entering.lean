import Mathlib.Data.List.FinRange
import NetworkFlow.NetworkSimplex.Entering
import NetworkFlow.Proofs.NetworkSimplex.Pivot

/-!
# The search for the entering arc finds one

Whatever the rule and wherever the search begins, it looks at every arc before it
gives up, and what it returns violates optimality. The rule that cannot cycle
returns the smallest such arc.

## Main results

* `findEntering_eq_none`: nothing is found exactly if no arc violates optimality.
* `violates_of_findEntering`: what is found violates optimality.
* `le_of_findEntering`: under the rule that cannot cycle, it is the smallest such arc.
-/

namespace NetworkFlow.NetworkSimplex

open scoped ExactCosts

variable {n m : Nat}

section Search

variable {α : Type} [Scalar α] {t : Tableau n m α} {b : Basis n m α}

theorem better_eq_none {best : Option (Fin (m + n) × α)} {a : Fin (m + n)} :
    better t b best a = none ↔ best = none ∧ violation t b a = none := by
  unfold better
  cases violation t b a with
  | none => simp
  | some v =>
      cases best with
      | none => simp
      | some w =>
          simp only [reduceCtorEq, and_false, iff_false]
          split <;> simp

/-- The better one of two arcs violates optimality if the first one does. -/
theorem isSome_of_better {best : Option (Fin (m + n) × α)} {a x : Fin (m + n)} {v : α}
    (hbest : ∀ x v, best = some (x, v) → (violation t b x).isSome)
    (h : better t b best a = some (x, v)) : (violation t b x).isSome := by
  unfold better at h
  cases hv : violation t b a with
  | none =>
      rw [hv] at h
      exact hbest x v h
  | some w =>
      rw [hv] at h
      cases best with
      | none =>
          cases h
          simp [hv]
      | some y =>
          simp only at h
          split at h
          · cases h
            simp [hv]
          · exact hbest x v h

theorem searchBlocks_eq_none {size scanned : Nat} {arcs : List (Fin (m + n))}
    {best : Option (Fin (m + n) × α)} :
    (searchBlocks t b size arcs scanned best).1 = none ↔
      best = none ∧ ∀ a ∈ arcs, violation t b a = none := by
  induction arcs generalizing scanned best with
  | nil => simp [searchBlocks]
  | cons a arcs ih =>
      simp only [searchBlocks, List.forall_mem_cons]
      rw [← and_assoc, ← better_eq_none]
      split
      · cases hbest : better t b best a with
        | none =>
            simp only
            rw [ih]
            simp
        | some y => simp
      · exact ih

theorem isSome_of_searchBlocks {size scanned : Nat} {arcs : List (Fin (m + n))}
    {best : Option (Fin (m + n) × α)} {a : Fin (m + n)}
    (hbest : ∀ x v, best = some (x, v) → (violation t b x).isSome)
    (h : (searchBlocks t b size arcs scanned best).1 = some a) : (violation t b a).isSome := by
  induction arcs generalizing scanned best with
  | nil =>
      cases best with
      | none => simp [searchBlocks] at h
      | some y =>
          obtain ⟨y, w⟩ := y
          obtain rfl : y = a := by simpa [searchBlocks] using h
          exact hbest y w rfl
  | cons x arcs ih =>
      have hbetter : ∀ y v, better t b best x = some (y, v) → (violation t b y).isSome :=
        fun y v => isSome_of_better hbest
      simp only [searchBlocks] at h
      split at h
      · cases hb : better t b best x with
        | none =>
            rw [hb] at h
            exact ih (by simp) h
        | some y =>
            rw [hb] at h
            obtain ⟨y, w⟩ := y
            obtain rfl : y = a := by simpa using h
            exact hbetter y w hb
      · exact ih hbetter h

theorem foldl_better_eq_none {arcs : List (Fin (m + n))} {best : Option (Fin (m + n) × α)} :
    arcs.foldl (better t b) best = none ↔ best = none ∧ ∀ a ∈ arcs, violation t b a = none := by
  induction arcs generalizing best with
  | nil => simp
  | cons a arcs ih => rw [List.foldl_cons, ih, better_eq_none, List.forall_mem_cons, and_assoc]

theorem isSome_of_foldl_better {arcs : List (Fin (m + n))} {best : Option (Fin (m + n) × α)}
    {a : Fin (m + n)} {v : α} (hbest : ∀ x v, best = some (x, v) → (violation t b x).isSome)
    (h : arcs.foldl (better t b) best = some (a, v)) : (violation t b a).isSome := by
  induction arcs generalizing best with
  | nil => exact hbest a v h
  | cons x arcs ih => exact ih (fun y w => isSome_of_better hbest) h

omit [Scalar α] in
theorem mem_fromCursor (b : Basis n m α) (a : Fin (m + n)) : a ∈ fromCursor b := by
  have h := List.mem_finRange a
  rw [← List.take_append_drop b.cursor (List.finRange (m + n)), List.mem_append] at h
  exact List.mem_append.mpr h.symm

theorem searchSmallest_eq_none :
    searchSmallest t b = none ↔ ∀ a, violation t b a = none := by
  simp [searchSmallest]

/-- Nothing is found exactly if no arc violates optimality. -/
theorem findEntering_eq_none :
    (findEntering t b).1 = none ↔ ∀ a, violation t b a = none := by
  unfold findEntering
  split
  · exact searchSmallest_eq_none
  · have hblocks : (searchBlocks t b t.blockSize (fromCursor b) 0 none).1 = none ↔
        ∀ a, violation t b a = none := by
      rw [searchBlocks_eq_none]
      constructor
      · exact fun h a => h.2 a (mem_fromCursor b a)
      · exact fun h => ⟨rfl, fun a _ => h a⟩
    cases t.rule with
    | firstEligible =>
        show (searchFirst t b).1 = none ↔ _
        unfold searchFirst
        cases hfind : (fromCursor b).find? fun a => (violation t b a).isSome with
        | none =>
            have hnone := List.find?_eq_none.mp hfind
            simpa using fun a => hnone a (mem_fromCursor b a)
        | some x =>
            have hx := List.find?_some hfind
            simp only [reduceCtorEq, false_iff, not_forall]
            exact ⟨x, fun h => by simp [h] at hx⟩
    | bestEligible =>
        show searchBest t b = none ↔ _
        rw [searchBest, Option.map_eq_none_iff, foldl_better_eq_none]
        simp
    | blockSearch => exact hblocks
    | bland => exact hblocks

/-- What is found violates optimality. -/
theorem isSome_of_findEntering {a : Fin (m + n)} (h : (findEntering t b).1 = some a) :
    (violation t b a).isSome := by
  unfold findEntering at h
  split at h
  · simpa using List.find?_some h
  · have hblocks : (searchBlocks t b t.blockSize (fromCursor b) 0 none).1 = some a →
        (violation t b a).isSome := isSome_of_searchBlocks (by simp)
    cases hrule : t.rule with
    | firstEligible =>
        rw [hrule] at h
        change (searchFirst t b).1 = some a at h
        unfold searchFirst at h
        cases hfind : (fromCursor b).find? fun a => (violation t b a).isSome with
        | none => simp [hfind] at h
        | some x =>
            obtain rfl : x = a := by simpa [hfind] using h
            simpa using List.find?_some hfind
    | bestEligible =>
        rw [hrule] at h
        change searchBest t b = some a at h
        rw [searchBest, Option.map_eq_some_iff] at h
        obtain ⟨⟨x, v⟩, hfold, rfl⟩ := h
        exact isSome_of_foldl_better (by simp) hfold
    | blockSearch =>
        rw [hrule] at h
        exact hblocks h
    | bland =>
        rw [hrule] at h
        exact hblocks h

/-- The rule that cannot cycle finds the smallest violating arc. -/
theorem le_of_findEntering (hb : b.bland) {a x : Fin (m + n)}
    (h : (findEntering t b).1 = some a) (hx : (violation t b x).isSome) : a ≤ x := by
  simp only [findEntering, hb, if_true, searchSmallest] at h
  obtain ⟨-, before, after, hsplit, hbefore⟩ := List.find?_eq_some_iff_append.mp h
  have hmem := List.mem_finRange x
  have hsorted := List.pairwise_lt_finRange (m + n)
  rw [hsplit] at hmem hsorted
  rcases List.mem_append.mp hmem with hmem | hmem
  · have := hbefore x hmem
    simp [hx] at this
  · rcases List.mem_cons.mp hmem with rfl | hmem
    · exact le_refl _
    · have := (List.pairwise_append.mp hsorted).2.1
      exact ((List.pairwise_cons.mp this).1 x hmem).le

end Search

variable [inst : ExactCosts] {t : Tableau n m Int} {b : Basis n m Int}

/-- Changing the flow of an arc outside the tree would make the flow cheaper. -/
def Violates (t : Tableau n m Int) (b : Basis n m Int) (a : Fin (m + n)) : Prop :=
  b.state[a] ≠ .tree ∧ t.reduced t.cost b.potential (entryArc b a) < 0

theorem reducedCost_eq_reduced (a : Fin (m + n)) :
    reducedCost t b a = t.reduced t.cost b.potential ⟨a, false⟩ := by
  obtain ⟨w, hw⟩ := inst
  subst hw
  rfl

/-- An arc that carries all it can enters backward. -/
theorem reduced_entryArc (a : Fin (m + n)) :
    t.reduced t.cost b.potential (entryArc b a) =
      if b.state[a] = .lower then reducedCost t b a else -reducedCost t b a := by
  rw [reducedCost_eq_reduced]
  split
  · next hs => simp [entryArc, hs]
  · next hs =>
      rw [← t.reduced_reverse]
      simp [entryArc, ResidualArc.reverse, hs]

/-- Without a tolerance, the violation of an arc is its reduced cost in the direction in which
its flow can change. -/
theorem isSome_violation (htol : t.tolerance = 0) (a : Fin (m + n)) :
    (violation t b a).isSome ↔ Violates t b a := by
  unfold Violates violation
  rw [reduced_entryArc]
  cases hs : b.state[a] with
  | tree => simp
  | lower =>
      simp only [scalar_lt_iff, scalar_neg_eq, htol, neg_zero, ne_eq, reduceCtorEq,
        not_false_eq_true, true_and, if_true]
      by_cases h : reducedCost t b a < 0 <;> simp [h]
  | upper =>
      simp only [scalar_lt_iff, htol, ne_eq, reduceCtorEq, not_false_eq_true, true_and,
        if_false, neg_neg_iff_pos]
      by_cases h : 0 < reducedCost t b a <;> simp [h]

/-- What a unit around the cycle of a violating arc saves. -/
theorem Violates.reduced_eq {a : Fin (m + n)} (h : Violates t b a) :
    t.reduced t.cost b.potential (entryArc b a) = -|reducedCost t b a| := by
  have hneg := h.2
  rw [reduced_entryArc] at hneg ⊢
  split at hneg
  · next hs => rw [if_pos hs, abs_of_neg hneg, neg_neg]
  · next hs => rw [if_neg hs, abs_of_pos (by omega)]

end NetworkFlow.NetworkSimplex
