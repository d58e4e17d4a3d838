import NetworkFlow.Error

/-!
# Values addressed by generational handles

A `HandleTable` owns values and hands out a `Handle` for each. The slot of a
removed value is used again, last freed first, but under the next generation, so
a handle to a removed value is not taken for a handle to the value that replaced
it, until the generations of the slot are used up.

The free slots are chained: a free slot holds the number of the one to fill after
it, and the table holds the number of the first. A slot's generation starts at one
and skips zero when it runs over, so no handle is written as the number zero. After
2 ^ 32 - 1 values it begins anew, and old handles come back to life. The number of a
slot is cut to 32 bits too.
-/

namespace NetworkFlow

/-- The address of a value: a slot and the generation in which it was filled. -/
structure Handle where
  index : UInt32
  generation : UInt32
  deriving DecidableEq, Repr

namespace Handle

/-- The handle as one number: the generation in the upper half. -/
def toRaw (h : Handle) : UInt64 :=
  UInt64.ofNat (h.generation.toNat * 4294967296 + h.index.toNat)

/-- The handle that a number stands for. -/
def ofRaw (raw : UInt64) : Handle where
  index := UInt32.ofNat (raw.toNat % 4294967296)
  generation := UInt32.ofNat (raw.toNat / 4294967296)

/-- The handle in a log line. -/
def text (h : Handle) : String :=
  "#" ++ toString h.index.toNat ++ "v" ++ toString h.generation.toNat

/-- Handles are ordered by slot, then by generation. -/
def compare (a b : Handle) : Ordering :=
  (Ord.compare a.index.toNat b.index.toNat).then
    (Ord.compare a.generation.toNat b.generation.toNat)

theorem toNat_toRaw (h : Handle) :
    h.toRaw.toNat = h.generation.toNat * 4294967296 + h.index.toNat := by
  have := h.generation.toNat_lt
  have := h.index.toNat_lt
  simp only [toRaw, UInt64.toNat_ofNat']
  omega

theorem ofRaw_toRaw (h : Handle) : ofRaw h.toRaw = h := by
  have := h.index.toNat_lt
  obtain ⟨index, generation⟩ := h
  simp only [ofRaw, toNat_toRaw, Handle.mk.injEq, ← UInt32.toNat_inj, UInt32.toNat_ofNat']
  have := index.toNat_lt
  have := generation.toNat_lt
  constructor <;> omega

theorem toRaw_ofRaw (raw : UInt64) : (ofRaw raw).toRaw = raw := by
  have := raw.toNat_lt
  rw [← UInt64.toNat_inj, toNat_toRaw]
  simp only [ofRaw, UInt32.toNat_ofNat']
  omega

end Handle

/-- A slot of a table: filled, or free with the generation of its next value and the
number of the free slot to fill after it. -/
inductive Slot (α : Type) where
  | occupied (generation : UInt32) (value : α)
  | vacant (generation : UInt32) (next : Option UInt32)

/-- Values addressed by handles. -/
structure HandleTable (α : Type) where
  /-- The slots, by number. -/
  slots : Array (Slot α) := #[]
  /-- The free slot to fill first. -/
  free : Option UInt32 := none
  /-- How many values the table holds. -/
  size : Nat := 0

namespace HandleTable

variable {α : Type}

/-- The generation after `g`; zero is left out. -/
def nextGeneration (g : UInt32) : UInt32 :=
  if g + 1 = 0 then 1 else g + 1

/-- The table that holds nothing. -/
def empty : HandleTable α := {}

/-- Whether the table holds nothing. -/
def isEmpty (t : HandleTable α) : Bool := t.size == 0

/-- The value under a handle. -/
def get? (t : HandleTable α) (h : Handle) : Option α :=
  match t.slots[h.index.toNat]? with
  | some (.occupied generation value) =>
      if generation = h.generation then some value else none
  | _ => none

/-- The value under a handle, or the refusal of a handle that is not alive. -/
def get (t : HandleTable α) (h : Handle) : Except Error α :=
  match t.get? h with
  | some value => .ok value
  | none => .error .invalidHandle

/-- Whether a handle is alive. -/
def contains (t : HandleTable α) (h : Handle) : Bool := (t.get? h).isSome

/-- Puts a value into a new slot at the end. -/
def push (t : HandleTable α) (value : α) : HandleTable α × Handle :=
  ({ t with slots := t.slots.push (.occupied 1 value), size := t.size + 1 },
    ⟨UInt32.ofNat t.slots.size, 1⟩)

/-- Puts a value into the table and returns its handle. The slot freed last is
filled first; a table without free slots grows. -/
def insert (t : HandleTable α) (value : α) : HandleTable α × Handle :=
  match t.free with
  | none => t.push value
  | some index =>
      match t.slots[index.toNat]? with
      | some (.vacant generation next) =>
          ({ slots := t.slots.setIfInBounds index.toNat (.occupied generation value)
             free := next
             size := t.size + 1 },
            ⟨index, generation⟩)
      | _ => t.push value

/-- Replaces the value under a handle that is alive. -/
def set (t : HandleTable α) (h : Handle) (value : α) : HandleTable α :=
  if t.contains h then
    { t with slots := t.slots.setIfInBounds h.index.toNat (.occupied h.generation value) }
  else t

/-- Takes the value under a handle out of the table. -/
def remove (t : HandleTable α) (h : Handle) : Except Error (HandleTable α × α) :=
  match t.get? h with
  | none => .error .invalidHandle
  | some value =>
      .ok ({ slots := t.slots.setIfInBounds h.index.toNat
               (.vacant (nextGeneration h.generation) t.free)
             free := some h.index
             size := t.size - 1 }, value)

/-- The entry of a slot, if it is filled. -/
def slotEntry (index : Nat) : Slot α → Option (Handle × α)
  | .occupied generation value => some (⟨UInt32.ofNat index, generation⟩, value)
  | .vacant .. => none

/-- The live handles with their values, by slot. -/
def toList (t : HandleTable α) : List (Handle × α) :=
  (t.slots.toList.zipIdx).filterMap fun (slot, index) => slotEntry index slot

end HandleTable

end NetworkFlow
