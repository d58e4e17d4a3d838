import NetworkFlow.Proofs.HandleTable

/-!
# The slots of a handle table

Three things are kept in step by every operation of a table: the chain that is threaded through the
free slots, the count of the values, and the generations of the slots (`Sound`). The chain passes
each free slot exactly once, so an insertion that takes the first slot of the chain always finds it
free.

A handle was handed out if its generation is not above that of its slot, or not above the one before
if the slot is free (`Issued`). An insertion answers a handle that was not handed out before, as long
as the number of its slot fits 32 bits; removing a value keeps that the handle was handed out, as long
as the generation of the slot does not run over.

## Main results

* `Sound.insert_cases`: an insertion fills the first free slot, or a new one if there is none.
* `Sound.generation_insert`, `generation_set`: no slot grows older where no value is removed.
* `Sound.insert`, `Sound.set`, `Sound.remove`: what every operation keeps.
* `get?_insert_of_issued`, `get?_insert_self`: what is read after an insertion.
* `issued_insert_iff`, `not_issued_insert`, `issued_remove_iff`: which handles were handed out.
-/

namespace NetworkFlow

namespace Slot

variable {α : Type}

/-- The slot holds a value. -/
def filled : Slot α → Bool
  | occupied .. => true
  | vacant .. => false

/-- The generation of the value of a slot, or of its next one. -/
def generation : Slot α → UInt32
  | occupied generation _ => generation
  | vacant generation _ => generation

end Slot

namespace HandleTable

variable {α : Type} {t t' : HandleTable α} {h h' : Handle} {value old x : α}

theorem toNat_nextGeneration_pos (g : UInt32) : 0 < (nextGeneration g).toNat := by
  unfold nextGeneration
  split
  · decide
  · rename_i hne
    rw [← UInt32.toNat_inj] at hne
    exact Nat.pos_of_ne_zero hne

/-- The last generation is the only one that is not followed by a later one. -/
theorem toNat_nextGeneration {g : UInt32} (h : g.toNat + 1 < 4294967296) :
    (nextGeneration g).toNat = g.toNat + 1 := by
  have hadd : (g + 1).toNat = g.toNat + 1 := by
    rw [UInt32.toNat_add]
    exact Nat.mod_eq_of_lt h
  have hne : g + 1 ≠ 0 := by
    intro heq
    rw [heq] at hadd
    simp at hadd
  rw [nextGeneration, if_neg hne, hadd]

/-- From a slot on, if any, the chain of free slots passes the slots of a list. -/
inductive Chain (slots : Array (Slot α)) : Option UInt32 → List UInt32 → Prop where
  | nil : Chain slots none []
  | cons {index generation : UInt32} {next : Option UInt32} {rest : List UInt32}
      (hslot : slots[index.toNat]? = some (.vacant generation next))
      (hrest : Chain slots next rest) : Chain slots (some index) (index :: rest)

/-- The slot with a number is free. -/
def Vacant (t : HandleTable α) (index : Nat) : Prop :=
  ∃ generation next, t.slots[index]? = some (.vacant generation next)

/-- The chain, the count and the generations are in step with the slots. -/
structure Sound (t : HandleTable α) : Prop where
  /-- The chain of free slots comes to an end, passes no slot twice, and passes the free slots. -/
  chain : ∃ chain, Chain t.slots t.free chain ∧ chain.Nodup ∧
    ∀ index, t.Vacant index ↔ ∃ i ∈ chain, i.toNat = index
  size : t.size = t.slots.countP Slot.filled
  positive : ∀ (index : Nat) (slot : Slot α), t.slots[index]? = some slot →
    0 < slot.generation.toNat

/-- The handle was handed out, and its value may be gone since. -/
def Issued (t : HandleTable α) (h : Handle) : Prop :=
  ∃ slot, t.slots[h.index.toNat]? = some slot ∧ 0 < h.generation.toNat ∧
    (h.generation.toNat < slot.generation.toNat ∨
      slot.filled = true ∧ h.generation = slot.generation)

/-- There is a slot for one more value whose number fits a handle. -/
def HasRoom (t : HandleTable α) : Prop := t.free = none → t.slots.size < 4294967296

/-! ## Chains -/

/-- A chain does not depend on what slots hold that it does not pass. -/
theorem Chain.congr {slots slots' : Array (Slot α)} {start : Option UInt32} {chain : List UInt32}
    (hchain : Chain slots start chain)
    (hsame : ∀ i ∈ chain, slots'[i.toNat]? = slots[i.toNat]?) : Chain slots' start chain := by
  induction hchain with
  | nil => exact .nil
  | cons hslot _ ih =>
      refine .cons ((hsame _ (by simp)).trans hslot) (ih fun i hi => hsame i ?_)
      exact List.mem_cons_of_mem _ hi

/-- The first slot of a chain is free. -/
theorem Sound.vacant_free {index : UInt32} (hsound : t.Sound) (hfree : t.free = some index) :
    ∃ generation next, t.slots[index.toNat]? = some (.vacant generation next) := by
  obtain ⟨chain, hchain, -, -⟩ := hsound.chain
  rw [hfree] at hchain
  cases hchain with
  | cons hslot hrest => exact ⟨_, _, hslot⟩

/-- An insertion fills the first free slot, or a new one if there is none. -/
theorem Sound.insert_cases (hsound : t.Sound) (value : α) :
    (t.free = none ∧ t.insert value = t.push value) ∨
      ∃ index generation next, t.free = some index ∧
        t.slots[index.toNat]? = some (.vacant generation next) ∧
        t.insert value =
          ({ slots := t.slots.setIfInBounds index.toNat (.occupied generation value)
             free := next
             size := t.size + 1 }, ⟨index, generation⟩) := by
  unfold insert
  cases hfree : t.free with
  | none => exact .inl ⟨rfl, rfl⟩
  | some index =>
      obtain ⟨generation, next, hslot⟩ := hsound.vacant_free hfree
      refine .inr ⟨index, generation, next, rfl, hslot, ?_⟩
      simp only [hslot]

/-! ## Slots after an operation -/

theorem getElem?_push (t : HandleTable α) (value : α) (i : Nat) :
    (t.push value).1.slots[i]? = if i = t.slots.size then some (.occupied 1 value) else t.slots[i]? :=
  Array.getElem?_push

/-- A slot that exists and is written holds what was written. -/
theorem getElem?_write {slots : Array (Slot α)} {index : Nat} {slot : Slot α}
    (hslot : slots[index]? = some slot) (written : Slot α) (i : Nat) :
    (slots.setIfInBounds index written)[i]? = if i = index then some written else slots[i]? := by
  obtain ⟨hbound, -⟩ := Array.getElem?_eq_some_iff.mp hslot
  rw [Array.getElem?_setIfInBounds]
  by_cases heq : index = i
  · simp [heq, heq ▸ hbound]
  · rw [if_neg heq, if_neg (Ne.symm heq)]

/-- What a slot is counted for, without the others. -/
theorem countP_write {slots : Array (Slot α)} {index : Nat} {slot : Slot α}
    (hslot : slots[index]? = some slot) (written : Slot α) :
    (slots.setIfInBounds index written).countP Slot.filled + (if slot.filled then 1 else 0) =
      slots.countP Slot.filled + if written.filled then 1 else 0 := by
  obtain ⟨hbound, hget⟩ := Array.getElem?_eq_some_iff.mp hslot
  have hcounted : (if slots[index].filled then 1 else 0) ≤ slots.countP Slot.filled := by
    split
    · exact Array.countP_pos_iff.mpr ⟨_, Array.getElem_mem hbound, ‹_›⟩
    · exact Nat.zero_le _
  rw [Array.setIfInBounds_def, dif_pos hbound, Array.countP_set hbound]
  rw [hget] at hcounted ⊢
  omega

theorem slot_of_get? (hget : t.get? h = some value) :
    t.slots[h.index.toNat]? = some (.occupied h.generation value) := get?_eq_some.mp hget

/-- A handle that is written or removed names a value, so its slot is not free. -/
theorem not_vacant_of_get? (hget : t.get? h = some value) : ¬ t.Vacant h.index.toNat := by
  rintro ⟨generation, next, hslot⟩
  rw [slot_of_get? hget] at hslot
  cases hslot

theorem set_eq (hget : t.get? h = some old) (value : α) :
    t.set h value =
      { t with slots := t.slots.setIfInBounds h.index.toNat (.occupied h.generation value) } :=
  if_pos (contains_iff.mpr ⟨old, hget⟩)

theorem set_eq_self (hget : t.get? h = none) (value : α) : t.set h value = t :=
  if_neg fun hcontains => by
    obtain ⟨old, hold⟩ := contains_iff.mp hcontains
    rw [hget] at hold
    cases hold

theorem remove_eq (hget : t.get? h = some value) :
    t.remove h = .ok
      ({ slots := t.slots.setIfInBounds h.index.toNat
           (.vacant (nextGeneration h.generation) t.free)
         free := some h.index
         size := t.size - 1 }, value) := by
  unfold remove
  rw [hget]

theorem remove_eq_ok (hremove : t.remove h = .ok (t', value)) :
    t.get? h = some value ∧ t' =
      { slots := t.slots.setIfInBounds h.index.toNat
          (.vacant (nextGeneration h.generation) t.free)
        free := some h.index
        size := t.size - 1 } := by
  cases hget : t.get? h with
  | none =>
      unfold remove at hremove
      rw [hget] at hremove
      cases hremove
  | some found =>
      rw [remove_eq hget] at hremove
      cases hremove
      exact ⟨rfl, rfl⟩

/-! ## Generations after an operation -/

section Generations

variable {i : Nat} {found : Slot α}

/-- A slot that is written with its own generation leaves every slot as old as it was. -/
theorem generation_write {slots : Array (Slot α)} {index : Nat} {slot written : Slot α}
    (hslot : slots[index]? = some slot)
    (hfound : (slots.setIfInBounds index written)[i]? = some found)
    (hsame : written.generation = slot.generation) :
    ∃ before, slots[i]? = some before ∧ before.generation = found.generation := by
  rw [getElem?_write hslot] at hfound
  split at hfound
  · rename_i hindex
    cases hfound
    exact ⟨slot, hindex ▸ hslot, hsame.symm⟩
  · exact ⟨found, hfound, rfl⟩

/-- A slot that is made by an insertion has the first generation, and the others are as old as they
were. -/
theorem Sound.generation_insert (hsound : t.Sound)
    (hfound : (t.insert value).1.slots[i]? = some found) :
    (i = t.slots.size ∧ found.generation = 1) ∨
      ∃ before, t.slots[i]? = some before ∧ before.generation = found.generation := by
  rcases hsound.insert_cases value with ⟨-, heq⟩ | ⟨index, generation, next, -, hvacant, heq⟩
  · rw [heq, getElem?_push] at hfound
    split at hfound
    · cases hfound
      exact .inl ⟨‹_›, rfl⟩
    · exact .inr ⟨found, hfound, rfl⟩
  · rw [heq] at hfound
    exact .inr (generation_write hvacant hfound rfl)

/-- A value that is replaced has the generation that it had. -/
theorem generation_set (hget : t.get? h = some old)
    (hfound : (t.set h value).slots[i]? = some found) :
    ∃ before, t.slots[i]? = some before ∧ before.generation = found.generation := by
  rw [set_eq hget] at hfound
  exact generation_write (slot_of_get? hget) hfound rfl

end Generations

/-! ## What every operation keeps -/

theorem sound_empty : (empty : HandleTable α).Sound where
  chain := ⟨[], .nil, List.nodup_nil, fun index => by simp [Vacant, empty]⟩
  size := rfl
  positive index slot hslot := by simp [empty] at hslot

/-- Writing a slot makes no other one free, and fills no other one. -/
theorem vacant_write_of_ne {index j : Nat} {slot written : Slot α}
    (hslot : t.slots[index]? = some slot)
    (hslots : t'.slots = t.slots.setIfInBounds index written) (hne : j ≠ index) :
    t'.Vacant j ↔ t.Vacant j := by
  unfold Vacant
  rw [hslots, getElem?_write hslot, if_neg hne]

theorem Sound.positive_write (hsound : t.Sound) {index : Nat} {slot written : Slot α}
    (hslot : t.slots[index]? = some slot) (hwritten : 0 < written.generation.toNat) (j : Nat)
    (found : Slot α) (hfound : (t.slots.setIfInBounds index written)[j]? = some found) :
    0 < found.generation.toNat := by
  rw [getElem?_write hslot] at hfound
  split at hfound
  · cases hfound
    exact hwritten
  · exact hsound.positive j found hfound

theorem Sound.push (hsound : t.Sound) (value : α) : (t.push value).1.Sound := by
  obtain ⟨chain, hchain, hnodup, hvacant⟩ := hsound.chain
  have hold : ∀ index, t.Vacant index → index ≠ t.slots.size := by
    rintro index ⟨generation, next, hslot⟩ rfl
    simp at hslot
  constructor
  case chain =>
    refine ⟨chain, hchain.congr fun i hi => ?_, hnodup, fun index => ?_⟩
    · rw [getElem?_push, if_neg (hold _ ((hvacant _).mpr ⟨i, hi, rfl⟩))]
    · rw [← hvacant]
      unfold Vacant
      simp only [getElem?_push]
      by_cases heq : index = t.slots.size
      · simp [heq]
      · simp [heq]
  case size =>
    show t.size + 1 = (t.slots.push _).countP _
    rw [Array.countP_push, hsound.size]
    rfl
  case positive =>
    intro index slot hslot
    rw [getElem?_push] at hslot
    split at hslot
    · cases hslot
      exact (show 0 < (1 : UInt32).toNat by decide)
    · exact hsound.positive index slot hslot

/-- The value that is inserted takes the first slot out of the chain. -/
theorem Sound.insert (hsound : t.Sound) (value : α) : (t.insert value).1.Sound := by
  rcases hsound.insert_cases value with ⟨-, heq⟩ | ⟨index, generation, next, hfree, hslot, heq⟩
  · rw [heq]
    exact hsound.push value
  rw [heq]
  obtain ⟨chain, hchain, hnodup, hvacant⟩ := hsound.chain
  rw [hfree] at hchain
  cases hchain with
  | @cons _ generation' next' rest hslot' hrest =>
    obtain ⟨rfl, rfl⟩ : generation = generation' ∧ next = next' := by
      rw [hslot] at hslot'
      cases hslot'
      exact ⟨rfl, rfl⟩
    obtain ⟨hnotMem, hrestNodup⟩ := List.nodup_cons.mp hnodup
    have hne : ∀ i ∈ rest, i.toNat ≠ index.toNat := by
      intro i hi heq
      rw [UInt32.toNat_inj] at heq
      exact hnotMem (heq ▸ hi)
    constructor
    case chain =>
      refine ⟨rest, hrest.congr fun i hi => ?_, hrestNodup, fun j => ?_⟩
      · rw [getElem?_write hslot, if_neg (hne i hi)]
      · by_cases hj : j = index.toNat
        · -- The slot is filled now, and the rest of the chain does not pass it again.
          unfold Vacant
          simp only [getElem?_write hslot, if_pos hj, reduceCtorEq, Option.some.injEq,
            exists_false, false_iff]
          rintro ⟨i, hi, heq⟩
          exact hne i hi (heq.trans hj)
        · rw [vacant_write_of_ne hslot rfl hj, hvacant]
          simp only [List.mem_cons, exists_eq_or_imp, Ne.symm hj, false_or]
    case size =>
      have hcount := countP_write hslot (.occupied generation value)
      have hsize := hsound.size
      simp only [Slot.filled, if_true, Bool.false_eq_true, if_false] at hcount
      simp only
      omega
    case positive => exact hsound.positive_write hslot (hsound.positive _ _ hslot :)

/-- A value that is replaced changes nothing but itself. -/
theorem Sound.set (hsound : t.Sound) (h : Handle) (value : α) : (t.set h value).Sound := by
  cases hget : t.get? h with
  | none =>
      rw [set_eq_self hget]
      exact hsound
  | some old =>
      have hslot := slot_of_get? hget
      rw [set_eq hget]
      obtain ⟨chain, hchain, hnodup, hvacant⟩ := hsound.chain
      constructor
      case chain =>
        refine ⟨chain, hchain.congr fun i hi => ?_, hnodup, fun j => ?_⟩
        · rw [getElem?_write hslot, if_neg]
          intro heq
          exact not_vacant_of_get? hget (heq ▸ (hvacant _).mpr ⟨i, hi, rfl⟩)
        · rw [← hvacant]
          by_cases hj : j = h.index.toNat
          · simp [Vacant, getElem?_write hslot, hj, hslot]
          · exact vacant_write_of_ne hslot rfl hj
      case size =>
        have hcount := countP_write hslot (.occupied h.generation value)
        have hsize := hsound.size
        simp only [Slot.filled, if_true] at hcount
        simp only
        omega
      case positive => exact hsound.positive_write hslot (hsound.positive _ _ hslot :)

/-- The slot of a value that is removed becomes the first of the chain. -/
theorem Sound.remove (hsound : t.Sound) (hremove : t.remove h = .ok (t', value)) : t'.Sound := by
  obtain ⟨hget, rfl⟩ := remove_eq_ok hremove
  have hslot := slot_of_get? hget
  obtain ⟨chain, hchain, hnodup, hvacant⟩ := hsound.chain
  have hnew : ∀ i ∈ chain, i.toNat ≠ h.index.toNat := by
    intro i hi heq
    exact not_vacant_of_get? hget (heq ▸ (hvacant _).mpr ⟨i, hi, rfl⟩)
  constructor
  case chain =>
    refine ⟨h.index :: chain, ?_, List.nodup_cons.mpr ⟨fun hi => hnew _ hi rfl, hnodup⟩, fun j => ?_⟩
    · refine .cons ((getElem?_write hslot _ _).trans (if_pos rfl)) (hchain.congr fun i hi => ?_)
      rw [getElem?_write hslot, if_neg (hnew i hi)]
    · by_cases hj : j = h.index.toNat
      · simp [Vacant, getElem?_write hslot, hj]
      · rw [vacant_write_of_ne hslot rfl hj, hvacant]
        simp only [List.mem_cons, exists_eq_or_imp, Ne.symm hj, false_or]
  case size =>
    have hcount := countP_write hslot (.vacant (nextGeneration h.generation) t.free)
    have hsize := hsound.size
    simp only [Slot.filled, if_true, Bool.false_eq_true, if_false] at hcount
    simp only
    omega
  case positive => exact hsound.positive_write hslot (toNat_nextGeneration_pos _)

/-! ## Handles that were handed out -/

theorem not_issued_empty (h : Handle) : ¬ (empty : HandleTable α).Issued h := by
  rintro ⟨slot, hslot, -⟩
  simp [empty] at hslot

/-- A handle that is alive was handed out. -/
theorem Sound.issued_of_get? (hsound : t.Sound) (hget : t.get? h = some value) : t.Issued h := by
  have hslot := slot_of_get? hget
  exact ⟨_, hslot, hsound.positive _ _ hslot, .inr ⟨rfl, rfl⟩⟩

/-- A handle that was not handed out yields nothing. -/
theorem Sound.get?_eq_none (hsound : t.Sound) (hnot : ¬ t.Issued h) : t.get? h = none :=
  Option.eq_none_iff_forall_ne_some.mpr fun _ hget => hnot (hsound.issued_of_get? hget)

/-- An insertion is not seen through a handle that was handed out before. -/
theorem get?_insert_of_issued (hsound : t.Sound) (hissued : t.Issued h) (value : α) :
    (t.insert value).1.get? h = t.get? h := by
  obtain ⟨slot, hslot, -, hgeneration⟩ := hissued
  obtain ⟨hbound, -⟩ := Array.getElem?_eq_some_iff.mp hslot
  unfold get?
  rcases hsound.insert_cases value with ⟨-, heq⟩ | ⟨index, generation, next, -, hvacant, heq⟩
  · rw [heq, getElem?_push, if_neg (by omega)]
  · rw [heq]
    simp only [getElem?_write hvacant]
    by_cases hindex : h.index.toNat = index.toNat
    · rw [hindex, hvacant] at hslot
      cases hslot
      have hne : generation ≠ h.generation := by
        rintro rfl
        rcases hgeneration with hlt | ⟨hfilled, -⟩
        · exact Nat.lt_irrefl _ hlt
        · cases hfilled
      simp [hindex, hvacant, hne]
    · rw [if_neg hindex]

theorem Sound.issued_insert (hsound : t.Sound) (hissued : t.Issued h) (value : α) :
    (t.insert value).1.Issued h := by
  obtain ⟨slot, hslot, hpos, hgeneration⟩ := hissued
  obtain ⟨hbound, -⟩ := Array.getElem?_eq_some_iff.mp hslot
  rcases hsound.insert_cases value with ⟨-, heq⟩ | ⟨index, generation, next, -, hvacant, heq⟩
  · refine ⟨slot, ?_, hpos, hgeneration⟩
    rw [heq, getElem?_push, if_neg (by omega), hslot]
  · rw [heq]
    by_cases hindex : h.index.toNat = index.toNat
    · refine ⟨.occupied generation value, (getElem?_write hvacant _ _).trans (if_pos hindex), hpos, ?_⟩
      rw [hindex, hvacant] at hslot
      cases hslot
      rcases hgeneration with hlt | ⟨hfilled, -⟩
      · exact .inl hlt
      · cases hfilled
    · refine ⟨slot, ?_, hpos, hgeneration⟩
      rw [getElem?_write hvacant, if_neg hindex, hslot]

theorem insert_eq_push (hfree : t.free = none) (value : α) : t.insert value = t.push value := by
  unfold insert
  rw [hfree]

/-- There is room if there are numbers for the slots that an insertion leaves. -/
theorem hasRoom_of_insert (hsize : (t.insert value).1.slots.size ≤ 4294967296) : t.HasRoom := by
  intro hfree
  rw [insert_eq_push hfree] at hsize
  simp only [push, Array.size_push] at hsize
  omega

section Room

variable (hroom : t.HasRoom)

include hroom

theorem toNat_index_push (hfree : t.free = none) (value : α) :
    (t.push value).2.index.toNat = t.slots.size := by
  show (UInt32.ofNat t.slots.size).toNat = t.slots.size
  rw [UInt32.toNat_ofNat']
  exact Nat.mod_eq_of_lt (hroom hfree)

/-- A value that is inserted is read under the handle that is answered. -/
theorem Sound.get?_insert_self (hsound : t.Sound) (value : α) :
    (t.insert value).1.get? (t.insert value).2 = some value := by
  rw [get?_eq_some]
  rcases hsound.insert_cases value with ⟨hfree, heq⟩ | ⟨index, generation, next, -, hvacant, heq⟩
  · rw [heq, getElem?_push, toNat_index_push hroom hfree, if_pos rfl]
    rfl
  · rw [heq]
    exact (getElem?_write hvacant _ _).trans (if_pos rfl)

/-- The handle that an insertion answers was not handed out before. -/
theorem Sound.not_issued_insert (hsound : t.Sound) (value : α) :
    ¬ t.Issued (t.insert value).2 := by
  rintro ⟨slot, hslot, -, hgeneration⟩
  rcases hsound.insert_cases value with ⟨hfree, heq⟩ | ⟨index, generation, next, -, hvacant, heq⟩
  · rw [heq, toNat_index_push hroom hfree] at hslot
    simp at hslot
  · rw [heq] at hslot hgeneration
    rw [show (⟨index, generation⟩ : Handle).index.toNat = index.toNat from rfl, hvacant] at hslot
    cases hslot
    rcases hgeneration with hlt | ⟨hfilled, -⟩
    · exact Nat.lt_irrefl _ hlt
    · cases hfilled

/-- An insertion hands out one handle. -/
theorem Sound.issued_insert_iff (hsound : t.Sound) (value : α) :
    (t.insert value).1.Issued h ↔ h = (t.insert value).2 ∨ t.Issued h := by
  constructor
  · rintro ⟨slot, hslot, hpos, hgeneration⟩
    rcases hsound.insert_cases value with ⟨hfree, heq⟩ | ⟨index, generation, next, -, hvacant, heq⟩
    · rw [heq, getElem?_push] at hslot
      split at hslot
      · rename_i hindex
        cases hslot
        refine .inl (eq_of_slot ?_ ?_)
        · rw [heq, toNat_index_push hroom hfree, hindex]
        · rw [heq]
          rcases hgeneration with hlt | ⟨-, hsame⟩
          · have : (1 : UInt32).toNat = 1 := rfl
            simp only [Slot.generation] at hlt
            omega
          · exact hsame
      · exact .inr ⟨slot, hslot, hpos, hgeneration⟩
    · rw [heq] at hslot ⊢
      replace hslot := (getElem?_write hvacant _ _).symm.trans hslot
      split at hslot
      · rename_i hindex
        cases hslot
        rcases hgeneration with hlt | ⟨-, hsame⟩
        · exact .inr ⟨_, (congrArg (t.slots[·]?) hindex).trans hvacant, hpos, .inl hlt⟩
        · exact .inl (eq_of_slot hindex hsame)
      · exact .inr ⟨slot, hslot, hpos, hgeneration⟩
  · rintro (rfl | hissued)
    · exact (hsound.insert value).issued_of_get? (hsound.get?_insert_self hroom value)
    · exact hsound.issued_insert hissued value

/-- An insertion is seen through no handle but the one that it answers. -/
theorem Sound.get?_insert_of_ne (hsound : t.Sound) (value : α) (hne : h ≠ (t.insert value).2) :
    (t.insert value).1.get? h = t.get? h := by
  by_cases hold : t.Issued h
  · exact get?_insert_of_issued hsound hold value
  · have hnot : ¬ (t.insert value).1.Issued h :=
      fun hissued => ((hsound.issued_insert_iff hroom value).mp hissued).elim hne hold
    rw [hsound.get?_eq_none hold, (hsound.insert value).get?_eq_none hnot]

end Room

theorem issued_set_iff : (t.set h value).Issued h' ↔ t.Issued h' := by
  cases hget : t.get? h with
  | none => rw [set_eq_self hget]
  | some old =>
      have hslot := slot_of_get? hget
      rw [set_eq hget]
      unfold Issued
      simp only [getElem?_write hslot]
      by_cases hindex : h'.index.toNat = h.index.toNat
      · simp [hindex, hslot, Slot.generation, Slot.filled]
      · simp [hindex]

/-- A handle stays handed out when a value is removed, as long as its slot has another generation. -/
theorem issued_remove_iff (hremove : t.remove h = .ok (t', value))
    (hlast : h.generation.toNat + 1 < 4294967296) : t'.Issued h' ↔ t.Issued h' := by
  obtain ⟨hget, rfl⟩ := remove_eq_ok hremove
  have hslot := slot_of_get? hget
  unfold Issued
  simp only [getElem?_write hslot]
  by_cases hindex : h'.index.toNat = h.index.toNat
  · have hle : (h'.generation.toNat < h.generation.toNat ∨ h'.generation = h.generation) ↔
        h'.generation.toNat < h.generation.toNat + 1 := by
      rw [← UInt32.toNat_inj]
      omega
    simp [hindex, hslot, Slot.generation, Slot.filled, toNat_nextGeneration hlast, hle]
  · simp [hindex]

/-! ## What is listed -/

/-- A handle is listed with the value that is read under it. -/
theorem mem_toList_iff (hsize : t.slots.size ≤ 4294967296) :
    (h, value) ∈ t.toList ↔ t.get? h = some value := by
  have hindex : ∀ i, i < t.slots.size → (UInt32.ofNat i).toNat = i := by
    intro i hi
    rw [UInt32.toNat_ofNat']
    exact Nat.mod_eq_of_lt (by omega)
  rw [get?_eq_some]
  unfold toList
  simp only [List.mem_filterMap, Prod.exists, List.mem_zipIdx_iff_getElem?, Array.getElem?_toList]
  constructor
  · rintro ⟨slot, i, hslot, hentry⟩
    obtain ⟨hbound, -⟩ := Array.getElem?_eq_some_iff.mp hslot
    cases slot with
    | vacant generation next => cases hentry
    | occupied generation found =>
        cases hentry
        rw [hindex i hbound]
        exact hslot
  · intro hslot
    exact ⟨_, _, hslot, by simp [slotEntry]⟩

/-- No handle is listed twice. -/
theorem nodup_toList (hsize : t.slots.size ≤ 4294967296) : (t.toList.map (·.1)).Nodup := by
  have hnumbers : t.slots.toList.zipIdx.Pairwise fun a b => a.2 ≠ b.2 := by
    rw [← List.pairwise_map (f := Prod.snd), List.zipIdx_map_snd]
    exact List.nodup_range'
  rw [List.Nodup, List.pairwise_map, toList, List.pairwise_filterMap]
  refine hnumbers.imp_of_mem fun {a b} ha hb hne => ?_
  intro entry hentry entry' hentry' heq
  obtain ⟨hbound, -⟩ := List.getElem?_eq_some_iff.mp (List.mem_zipIdx_iff_getElem?.mp ha)
  obtain ⟨hbound', -⟩ := List.getElem?_eq_some_iff.mp (List.mem_zipIdx_iff_getElem?.mp hb)
  obtain ⟨slot, i⟩ := a
  obtain ⟨slot', j⟩ := b
  cases slot <;> cases hentry
  cases slot' <;> cases hentry'
  have hsame := congrArg (fun h : Handle => h.index.toNat) heq
  simp only [UInt32.toNat_ofNat', Array.length_toList] at hsame hbound hbound'
  rw [Nat.mod_eq_of_lt (by omega), Nat.mod_eq_of_lt (by omega)] at hsame
  exact hne hsame

/-- The values are counted as they are listed. -/
theorem Sound.size_eq_length (hsound : t.Sound) : t.size = t.toList.length := by
  have hfilled : ∀ a : Slot α × Nat, (slotEntry a.2 a.1).isSome = a.1.filled := by
    rintro ⟨slot, i⟩
    cases slot <;> rfl
  rw [hsound.size, toList, List.length_filterMap_eq_countP]
  simp only [hfilled]
  calc t.slots.countP Slot.filled = (t.slots.toList.zipIdx.map Prod.fst).countP Slot.filled := by
        rw [List.zipIdx_map_fst, Array.countP_toList]
    _ = t.slots.toList.zipIdx.countP fun a => a.1.filled := List.countP_map

end HandleTable

end NetworkFlow
