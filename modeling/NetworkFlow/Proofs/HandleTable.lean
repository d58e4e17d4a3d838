import Mathlib.Tactic.SplitIfs
import NetworkFlow.HandleTable

/-!
# What a handle table reads as

A change of a handle table says what the table reads as afterwards under every handle. The handle
that is written or removed names a value, so its slot is filled in its generation; every other
handle with the same slot is of another generation and reads nothing before and after.

## Main results

* `get?_set`, `get?_remove`: a value is replaced or gone, all others stay.
* `get?_insert`: a value that is read after an insertion was there before or is the inserted one.
-/

namespace NetworkFlow

namespace HandleTable

variable {α : Type} {t t' : HandleTable α} {h h' : Handle} {value x : α}

theorem get?_eq_some : t.get? h = some value ↔
    t.slots[h.index.toNat]? = some (.occupied h.generation value) := by
  unfold get?
  constructor
  · intro hget
    split at hget
    · rename_i generation value' hslot
      split at hget
      · cases hget
        simp_all
      · cases hget
    · cases hget
  · intro hslot
    simp [hslot]

theorem contains_iff : t.contains h ↔ ∃ value, t.get? h = some value := by
  unfold contains
  exact Option.isSome_iff_exists

/-- What is read is what the slot of the handle holds in its generation. -/
theorem get_eq_ok : t.get h = .ok value ↔ t.get? h = some value := by
  unfold get
  cases t.get? h <;> simp

theorem get_eq_error {cause : Error} :
    t.get h = .error cause ↔ cause = .invalidHandle ∧ t.get? h = none := by
  unfold get
  cases t.get? h <;> simp [eq_comm]

theorem remove_eq_error {cause : Error} :
    t.remove h = .error cause ↔ cause = .invalidHandle ∧ t.get? h = none := by
  unfold remove
  cases t.get? h <;> simp [eq_comm]

theorem eq_of_slot (hindex : h.index.toNat = h'.index.toNat)
    (hgeneration : h.generation = h'.generation) : h = h' := by
  obtain ⟨index, generation⟩ := h
  obtain ⟨index', generation'⟩ := h'
  simp_all [UInt32.toNat_inj]

/-- Only the handle of its generation reads a slot that holds a value. -/
theorem get?_of_slot (hget : t.get? h = some value) (hindex : h.index.toNat = h'.index.toNat)
    (hne : h' ≠ h) : t.get? h' = none := by
  rw [get?_eq_some] at hget
  unfold get?
  rw [← hindex, hget]
  refine if_neg fun hgeneration => hne (eq_of_slot hindex.symm hgeneration.symm)

/-- A value that is replaced is read under its handle, all others are as before. -/
theorem get?_set (t : HandleTable α) (h : Handle) (value : α) (h' : Handle) :
    (t.set h value).get? h' = if h' = h ∧ t.contains h then some value else t.get? h' := by
  unfold set
  by_cases hcontains : t.contains h
  · obtain ⟨old, hold⟩ := contains_iff.mp hcontains
    have hslot := get?_eq_some.mp hold
    obtain ⟨hbound, -⟩ := Array.getElem?_eq_some_iff.mp hslot
    rw [if_pos hcontains]
    by_cases hindex : h.index.toNat = h'.index.toNat
    · by_cases heq : h' = h
      · subst heq
        simp [hcontains, get?, hbound]
      · rw [if_neg fun hh => heq hh.1, get?_of_slot hold hindex heq]
        have hgeneration : h.generation ≠ h'.generation :=
          fun hgeneration => heq (eq_of_slot hindex hgeneration).symm
        simp [get?, ← hindex, hbound, hgeneration]
    · have heq : h' ≠ h := fun heq => hindex (by rw [heq])
      rw [if_neg fun hh => heq hh.1]
      simp [get?, Array.getElem?_setIfInBounds_ne hindex]
  · simp [hcontains]

/-- A value that is removed is no longer read, all others are as before. -/
theorem get?_remove (hremove : t.remove h = .ok (t', value)) (h' : Handle) :
    t'.get? h' = if h' = h then none else t.get? h' := by
  unfold remove at hremove
  cases hget : t.get? h with
  | none =>
      rw [hget] at hremove
      cases hremove
  | some old =>
      rw [hget] at hremove
      cases hremove
      have hslot := get?_eq_some.mp hget
      obtain ⟨hbound, -⟩ := Array.getElem?_eq_some_iff.mp hslot
      by_cases hindex : h.index.toNat = h'.index.toNat
      · by_cases heq : h' = h
        · subst heq
          simp [get?, hbound]
        · rw [if_neg heq, get?_of_slot hget hindex heq]
          simp [get?, ← hindex, hbound]
      · have heq : h' ≠ h := fun heq => hindex (by rw [heq])
        rw [if_neg heq]
        simp [get?, Array.getElem?_setIfInBounds_ne hindex]

theorem get?_push (hget : (t.push value).1.get? h = some x) : x = value ∨ t.get? h = some x := by
  rw [get?_eq_some] at hget ⊢
  unfold push at hget
  rw [Array.getElem?_push] at hget
  split at hget
  · injection hget with hslot
    injection hslot with _ hvalue
    exact .inl hvalue.symm
  · exact .inr hget

/-- A value that is read after an insertion was there before or is the inserted one. -/
theorem get?_insert (hget : (t.insert value).1.get? h = some x) :
    x = value ∨ t.get? h = some x := by
  unfold insert at hget
  split at hget
  · exact get?_push hget
  · split at hget
    · rename_i index _ _ generation next hvacant
      rw [get?_eq_some] at hget ⊢
      by_cases hindex : index.toNat = h.index.toNat
      · obtain ⟨hbound, -⟩ := Array.getElem?_eq_some_iff.mp hvacant
        rw [← hindex, Array.getElem?_setIfInBounds_self_of_lt hbound] at hget
        injection hget with hslot
        injection hslot with _ hvalue
        exact .inl hvalue.symm
      · simp only [Array.getElem?_setIfInBounds_ne hindex] at hget
        exact .inr hget
    · exact get?_push hget

end HandleTable

end NetworkFlow
