import NetworkFlow.Proofs.HandleTable

/-!
# Changing the value under a handle

`HandleTable.adjust` changes the value under a handle, if it is alive, and nothing else: not the chain
of free slots, not a generation and not the count. So it makes no difference whether another operation
comes before it or after it, as long as the values that the other one brings in are fixed by the
change.

## Main results

* `get?_adjust`: what is read afterwards.
* `insert_adjust`, `set_adjust`, `remove_adjust`: other operations before and after the change.
-/

namespace NetworkFlow

namespace Slot

variable {α : Type}

/-- The slot with its value changed, if it is filled in a given generation. -/
def adjust (generation : UInt32) (f : α → α) : Slot α → Slot α
  | occupied g value => occupied g (if g = generation then f value else value)
  | vacant g next => vacant g next

end Slot

namespace HandleTable

variable {α : Type} {t : HandleTable α} {h h' : Handle} {value : α} {f : α → α}

/-- Changes the value under a handle, if it is alive. -/
def adjust (t : HandleTable α) (h : Handle) (f : α → α) : HandleTable α :=
  { t with slots := t.slots.modify h.index.toNat (Slot.adjust h.generation f) }

/-- Tables are equal if their slots read the same. -/
theorem eq_of_slots {t t' : HandleTable α} (hslots : ∀ i : Nat, t.slots[i]? = t'.slots[i]?)
    (hfree : t.free = t'.free) (hsize : t.size = t'.size) : t = t' := by
  obtain ⟨slots, free, size⟩ := t
  obtain ⟨slots', free', size'⟩ := t'
  obtain rfl : slots = slots' := Array.ext_getElem? hslots
  cases hfree
  cases hsize
  rfl

theorem getElem?_adjust (t : HandleTable α) (h : Handle) (f : α → α) (i : Nat) :
    (t.adjust h f).slots[i]? = if h.index.toNat = i then t.slots[i]?.map (Slot.adjust h.generation f)
      else t.slots[i]? :=
  Array.getElem?_modify

@[simp] theorem size_slots_adjust (t : HandleTable α) (h : Handle) (f : α → α) :
    (t.adjust h f).slots.size = t.slots.size := Array.size_modify

@[simp] theorem free_adjust (t : HandleTable α) (h : Handle) (f : α → α) :
    (t.adjust h f).free = t.free := rfl

theorem get?_adjust (t : HandleTable α) (h : Handle) (f : α → α) (h' : Handle) :
    (t.adjust h f).get? h' = if h' = h then (t.get? h').map f else t.get? h' := by
  unfold get?
  rw [getElem?_adjust]
  by_cases hindex : h.index.toNat = h'.index.toNat
  · rw [if_pos hindex]
    rcases t.slots[h'.index.toNat]? with _ | ⟨generation, value⟩ | ⟨generation, next⟩
    · simp
    · by_cases hgeneration : generation = h'.generation
      · by_cases heq : h' = h
        · simp [Slot.adjust, hgeneration, heq]
        · have hne : h'.generation ≠ h.generation :=
            fun hsame => heq (eq_of_slot hindex.symm hsame)
          simp [Slot.adjust, hgeneration, heq, hne]
      · simp [Slot.adjust, hgeneration]
    · simp [Slot.adjust]
  · have heq : h' ≠ h := fun heq => hindex (by rw [heq])
    rw [if_neg hindex, if_neg heq]

theorem adjust_of_get? (hget : t.get? h = some value) : t.adjust h f = t.set h (f value) := by
  have hslot := get?_eq_some.mp hget
  obtain ⟨hbound, -⟩ := Array.getElem?_eq_some_iff.mp hslot
  have hset : t.set h (f value) =
      { t with slots := t.slots.setIfInBounds h.index.toNat (.occupied h.generation (f value)) } :=
    if_pos (contains_iff.mpr ⟨value, hget⟩)
  rw [hset]
  refine eq_of_slots (fun i => ?_) rfl rfl
  rw [getElem?_adjust]
  by_cases hindex : h.index.toNat = i
  · subst hindex
    rw [if_pos rfl, hslot, Array.getElem?_setIfInBounds_self_of_lt hbound]
    simp [Slot.adjust]
  · simp [hindex]

/-- What is fixed by the change stays. -/
theorem adjust_eq_self (hfixed : ∀ value, t.get? h = some value → f value = value) :
    t.adjust h f = t := by
  refine eq_of_slots (fun i => ?_) rfl rfl
  rw [getElem?_adjust]
  split
  · rename_i hindex
    subst hindex
    rcases hslot : t.slots[h.index.toNat]? with _ | ⟨generation, value⟩ | ⟨generation, next⟩
    · rfl
    · by_cases hgeneration : generation = h.generation
      · subst hgeneration
        simp [Slot.adjust, hfixed value (get?_eq_some.mpr hslot)]
      · simp [Slot.adjust, hgeneration]
    · rfl
  · rfl

theorem contains_adjust (t : HandleTable α) (h : Handle) (f : α → α) (h' : Handle) :
    (t.adjust h f).contains h' = t.contains h' := by
  unfold contains
  rw [get?_adjust]
  split <;> simp

section Fixed

variable (hfixed : f value = value)

include hfixed

theorem push_adjust (t : HandleTable α) (h : Handle) :
    (t.adjust h f).push value = ((t.push value).1.adjust h f, (t.push value).2) := by
  refine Prod.ext (eq_of_slots (fun i => ?_) rfl rfl) ?_
  · show ((t.adjust h f).slots.push _)[i]? = _
    rw [Array.getElem?_push, getElem?_adjust, getElem?_adjust, size_slots_adjust]
    show _ = if h.index.toNat = i then Option.map _ (t.slots.push _)[i]? else (t.slots.push _)[i]?
    rw [Array.getElem?_push]
    split_ifs <;> simp [Slot.adjust, hfixed]
  · simp only [push, size_slots_adjust]

theorem insert_adjust (t : HandleTable α) (h : Handle) :
    (t.adjust h f).insert value = ((t.insert value).1.adjust h f, (t.insert value).2) := by
  have hwrite : ∀ (index generation : UInt32) (next : Option UInt32),
      ({ slots := (t.adjust h f).slots.setIfInBounds index.toNat (.occupied generation value)
         free := next
         size := t.size + 1 } : HandleTable α) =
        adjust { slots := t.slots.setIfInBounds index.toNat (.occupied generation value)
                 free := next
                 size := t.size + 1 } h f := by
    intro index generation next
    refine eq_of_slots (fun i => ?_) rfl rfl
    simp only [getElem?_adjust, Array.getElem?_setIfInBounds, size_slots_adjust]
    split_ifs <;> simp [Slot.adjust, hfixed]
  unfold insert
  rw [free_adjust]
  cases t.free with
  | none => exact push_adjust hfixed t h
  | some index =>
      simp only [getElem?_adjust]
      rcases hslot : t.slots[index.toNat]? with _ | ⟨generation, old⟩ | ⟨generation, next⟩
      · split_ifs <;> exact push_adjust hfixed t h
      · split_ifs <;> exact push_adjust hfixed t h
      · split_ifs <;> exact Prod.ext (hwrite index generation next) rfl

end Fixed

/-- A value that is written is there before the change or after it, unless it is the one that is
changed. -/
theorem set_adjust (hfixed : h' = h → f value = value) (t : HandleTable α) :
    (t.adjust h f).set h' value = (t.set h' value).adjust h f := by
  unfold set
  rw [contains_adjust]
  split
  · refine eq_of_slots (fun i => ?_) rfl rfl
    simp only [getElem?_adjust, Array.getElem?_setIfInBounds, size_slots_adjust]
    split_ifs with hindex' hbound hindex
    · have hsame : h'.generation = h.generation → value = f value := fun hgeneration =>
        (hfixed (eq_of_slot (hindex'.trans hindex.symm) hgeneration)).symm
      simpa [Slot.adjust] using hsame
    all_goals rfl
  · rfl

/-- A change is undone by writing another value. -/
theorem set_adjust_self (t : HandleTable α) (h : Handle) (f : α → α) (value : α) :
    (t.adjust h f).set h value = t.set h value := by
  unfold set
  rw [contains_adjust]
  split
  · refine eq_of_slots (fun i => ?_) rfl rfl
    simp only [getElem?_adjust, Array.getElem?_setIfInBounds, size_slots_adjust]
    split_ifs <;> rfl
  · rename_i hcontains
    refine adjust_eq_self fun old hold => ?_
    exact absurd (contains_iff.mpr ⟨old, hold⟩) hcontains

theorem adjust_comm (t : HandleTable α) (h h' : Handle) (f : α → α) :
    (t.adjust h f).adjust h' f = (t.adjust h' f).adjust h f := by
  have hslot : ∀ (g g' : UInt32) (slot : Slot α),
      (slot.adjust g f).adjust g' f = (slot.adjust g' f).adjust g f := by
    intro g g' slot
    cases slot with
    | vacant => rfl
    | occupied generation value =>
        simp only [Slot.adjust]
        split_ifs <;> rfl
  refine eq_of_slots (fun i => ?_) rfl rfl
  simp only [getElem?_adjust]
  split_ifs
  · simp only [Option.map_map, Function.comp_def, hslot]
  all_goals rfl

theorem remove_adjust (t : HandleTable α) (h : Handle) (f : α → α) (h' : Handle) :
    (t.adjust h f).remove h' = (fun left : HandleTable α × α =>
      (left.1.adjust h f, if h' = h then f left.2 else left.2)) <$> t.remove h' := by
  unfold remove
  rw [get?_adjust]
  cases t.get? h' with
  | none => split_ifs <;> rfl
  | some value =>
      split_ifs
      all_goals
        refine congrArg Except.ok (Prod.ext (eq_of_slots (fun i => ?_) rfl rfl) rfl)
        simp only [getElem?_adjust, Array.getElem?_setIfInBounds, size_slots_adjust]
        split_ifs <;> simp [Slot.adjust]

end HandleTable

end NetworkFlow
