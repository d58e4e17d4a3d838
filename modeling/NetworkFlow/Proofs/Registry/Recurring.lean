import Mathlib.Logic.Function.Iterate
import NetworkFlow.Proofs.HandleTable.Slots
import NetworkFlow.Proofs.Registry.Requests

/-!
# Handles that come back

A slot has 2 ^ 32 - 1 generations, and after the last one it begins with the first again. Filling
the slot that is free first and freeing it again changes nothing in a registry but the generation of
this slot. So after enough rounds the slot is filled under a handle that was handed out long ago,
and whatever still keeps this handle takes the new object for the old one.

## Main results

* `toNat_iterate_nextGeneration`: the generation of a slot after some rounds.
* `afterAll_wear`: what rounds of filling a slot and freeing it leave of a registry.
-/

namespace NetworkFlow

namespace HandleTable

variable {α : Type} {t : HandleTable α} {index generation : UInt32} {next : Option UInt32}

theorem toNat_nextGeneration_of_pos {g : UInt32} (hpos : 0 < g.toNat) :
    (nextGeneration g).toNat = g.toNat % 4294967295 + 1 := by
  have hlt := g.toNat_lt
  by_cases hlast : g.toNat + 1 < 4294967296
  · rw [toNat_nextGeneration hlast, Nat.mod_eq_of_lt (by omega)]
  · have heq : g.toNat = 4294967295 := by omega
    obtain rfl : g = 4294967295 := UInt32.toNat_inj.mp heq
    rfl

/-- Generations are counted from one, and begin anew after 2 ^ 32 - 1 of them. -/
theorem toNat_iterate_nextGeneration {g : UInt32} (hpos : 0 < g.toNat) (rounds : Nat) :
    (nextGeneration^[rounds] g).toNat = (g.toNat - 1 + rounds) % 4294967295 + 1 := by
  have hlt := g.toNat_lt
  induction rounds with
  | zero =>
      rw [Function.iterate_zero_apply, Nat.mod_eq_of_lt (by omega)]
      omega
  | succ rounds ih =>
      rw [Function.iterate_succ_apply', toNat_nextGeneration_of_pos (by omega), ih]
      omega

/-- All generations but one after the second one, it is the first one's turn. -/
theorem iterate_nextGeneration_two : nextGeneration^[4294967294] 2 = 1 := by
  rw [← UInt32.toNat_inj, toNat_iterate_nextGeneration (by decide)]
  rfl

/-- The table with a free slot in a given generation. -/
def renumber (t : HandleTable α) (index generation : UInt32) (next : Option UInt32) :
    HandleTable α :=
  { t with slots := t.slots.setIfInBounds index.toNat (.vacant generation next) }

/-- The slot is the one to fill first, in a given generation. -/
structure Heads (t : HandleTable α) (index generation : UInt32) (next : Option UInt32) : Prop where
  free : t.free = some index
  slot : t.slots[index.toNat]? = some (.vacant generation next)

/-- The generation of a free slot and the slot to fill after it. -/
def vacancy? : Slot α → Option (UInt32 × Option UInt32)
  | .vacant generation next => some (generation, next)
  | .occupied .. => none

theorem heads_iff : t.Heads index generation next ↔
    t.free = some index ∧ t.slots[index.toNat]?.bind vacancy? = some (generation, next) := by
  refine ⟨fun h => ⟨h.free, by rw [h.slot]; rfl⟩, fun ⟨hfree, hslot⟩ => ⟨hfree, ?_⟩⟩
  obtain ⟨slot, hget, hvacancy⟩ := Option.bind_eq_some_iff.mp hslot
  rw [hget]
  cases slot <;> cases hvacancy
  rfl

instance : Decidable (t.Heads index generation next) := decidable_of_iff _ heads_iff.symm

theorem Heads.renumber (h : t.Heads index generation next) (generation' : UInt32) :
    (t.renumber index generation' next).Heads index generation' next where
  free := h.free
  slot := (getElem?_write h.slot _ _).trans (if_pos rfl)

theorem Heads.renumber_self (h : t.Heads index generation next) :
    t.renumber index generation next = t := by
  obtain ⟨hbound, hget⟩ := Array.getElem?_eq_some_iff.mp h.slot
  have hslots : t.slots.setIfInBounds index.toNat (.vacant generation next) = t.slots := by
    rw [← hget, Array.setIfInBounds_def, dif_pos hbound, Array.set_getElem_self]
  rw [HandleTable.renumber, hslots]

theorem renumber_renumber (t : HandleTable α) (index generation generation' : UInt32)
    (next : Option UInt32) :
    (t.renumber index generation next).renumber index generation' next =
      t.renumber index generation' next := by
  simp [renumber]

/-- The slot is filled under its own generation. -/
theorem Heads.insert_eq (h : t.Heads index generation next) (value : α) :
    t.insert value =
      ({ slots := t.slots.setIfInBounds index.toNat (.occupied generation value)
         free := next
         size := t.size + 1 }, ⟨index, generation⟩) := by
  unfold HandleTable.insert
  rw [h.free]
  simp only [h.slot]

/-- The value that was put in last can be taken out, and leaves its slot one generation older. -/
theorem Heads.remove_insert (h : t.Heads index generation next) (value : α) :
    (t.insert value).1.get? ⟨index, generation⟩ = some value ∧
      (t.insert value).1.remove ⟨index, generation⟩ =
        .ok (t.renumber index (nextGeneration generation) next, value) := by
  have hget : (t.insert value).1.get? ⟨index, generation⟩ = some value := by
    rw [h.insert_eq, get?_eq_some]
    exact (getElem?_write h.slot _ _).trans (if_pos rfl)
  refine ⟨hget, ?_⟩
  rw [remove_eq hget, h.insert_eq]
  simp [HandleTable.renumber, h.free]

end HandleTable

namespace Registry

open HandleTable

variable {r : Registry} {index generation : UInt32} {next : Option UInt32}

/-- The registry with its first free slot in a given generation. -/
def renumber (r : Registry) (index generation : UInt32) (next : Option UInt32) : Registry :=
  { r with objects := r.objects.renumber index generation next }

/-- The first free slot is filled and freed again, a number of times. -/
def wear (index : UInt32) : UInt32 → Nat → List Request
  | _, 0 => []
  | generation, rounds + 1 =>
      .edit .newPairList :: .edit (.destruct ⟨index, generation⟩ .pairList) ::
        wear index (nextGeneration generation) rounds

/-- The rounds are nothing but edits. -/
theorem exists_edit_of_mem_wear {request : Request} {rounds : Nat}
    (h : request ∈ wear index generation rounds) : ∃ edit, request = .edit edit := by
  induction rounds generalizing generation with
  | zero => cases h
  | succ rounds ih =>
      rcases List.mem_cons.mp h with rfl | h
      · exact ⟨_, rfl⟩
      · rcases List.mem_cons.mp h with rfl | h
        · exact ⟨_, rfl⟩
        · exact ih h

/-- One round makes the slot one generation older. -/
theorem after_round (h : r.objects.Heads index generation next) :
    Request.after (Request.after r (.edit .newPairList))
        (.edit (.destruct ⟨index, generation⟩ .pairList)) =
      r.renumber index (nextGeneration generation) next := by
  obtain ⟨hget, hremove⟩ := h.remove_insert (.pairList #[])
  have hfilled : Request.after r (.edit .newPairList) =
      { r with objects := (r.objects.insert (.pairList #[])).1 } := rfl
  have hkind : (Request.after r (.edit .newPairList)).kind ⟨index, generation⟩ = .ok .pairList := by
    rw [hfilled]
    exact congrArg (Functor.map Object.kind) (get_eq_ok.mpr hget)
  rw [after_edit]
  show ((destruct ⟨index, generation⟩ .pairList).run (Request.after r (.edit .newPairList))).2 = _
  unfold destruct
  rw [Action.run_get_bind, hkind, Action.run_ok_bind, if_neg (by simp), hfilled]
  simp only [hremove]
  rfl

/-- What rounds of filling a slot and freeing it leave of a registry. -/
theorem afterAll_wear (h : r.objects.Heads index generation next) (rounds : Nat) :
    r.afterAll (wear index generation rounds) =
      r.renumber index (nextGeneration^[rounds] generation) next := by
  induction rounds generalizing r generation with
  | zero =>
      show r = { r with objects := r.objects.renumber index generation next }
      rw [h.renumber_self]
  | succ rounds ih =>
      show (Request.after (Request.after r _) _).afterAll (wear _ _ rounds) = _
      rw [after_round h, ih (h.renumber _), Function.iterate_succ_apply]
      exact congrArg (fun objects => ({ r with objects } : Registry))
        (renumber_renumber _ _ _ _ _)

/-- A slot whose first object was destroyed is filled under the first handle again. -/
theorem afterAll_wear_two (h : r.objects.Heads index 2 next) :
    r.afterAll (wear index 2 4294967294) = r.renumber index 1 next := by
  rw [afterAll_wear h, iterate_nextGeneration_two]

namespace Shipment

/-- A map over the arcs of the graph. -/
def bounds : Handle := ⟨4, 1⟩

/-- The upper bounds of the solver are destroyed before it is run. -/
def boundsLost : List Request :=
  order 2 ++ [.edit (.newMap .arc graph .long), .edit (.attach solver .upper bounds),
    .edit (.destruct bounds .arcMap)]

/-- Then their slot is used up, and filled with a map of another type. -/
def retyped : List Request :=
  boundsLost ++ wear 4 2 4294967294 ++ [.edit (.newMap .arc graph .double)]

theorem afterAll_retyped : empty.afterAll retyped =
    ((empty.afterAll boundsLost).renumber 4 1 none).afterAll
      [.edit (.newMap .arc graph .double)] := by
  have hheads : (empty.afterAll boundsLost).objects.Heads 4 2 none := by decide +kernel
  rw [retyped, afterAll_append, afterAll_append, afterAll_wear_two hheads]

/-- The list that another graph is built from. -/
def pairsBack : Handle := ⟨4, 1⟩

/-- The graph of the solver is destroyed after it was run. -/
def graphLost : List Request :=
  order 2 ++ [.run solver 20, .edit (.destruct graph .staticDigraph)]

/-- A graph whose arc leads back is built in the place of the first one. -/
def rebuilt : List Request :=
  [.edit .newStaticDigraph, .edit .newPairList, .edit (.pushPair pairsBack 1 0),
    .edit (.buildStatic graph 2 pairsBack)]

/-- This is done once the slot of the first graph is used up. -/
def reversed : List Request := graphLost ++ wear 0 2 4294967294 ++ rebuilt

theorem afterAll_reversed : empty.afterAll reversed =
    ((empty.afterAll graphLost).renumber 0 1 none).afterAll rebuilt := by
  have hheads : (empty.afterAll graphLost).objects.Heads 0 2 none := by decide +kernel
  rw [reversed, afterAll_append, afterAll_append, afterAll_wear_two hheads]

end Shipment

end Registry

end NetworkFlow
