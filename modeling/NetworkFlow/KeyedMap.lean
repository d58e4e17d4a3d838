import NetworkFlow.Graph.Digraph

/-!
# Maps over the nodes or arcs of a graph

A `KeyedMap` gives a value to every node, or to every arc, of one graph. A key
that was never set reads as the fill value. The map grows when a key beyond its
end is set, so it keeps working while its graph grows.

Main results: `valueAt_set_self`, `valueAt_set_of_ne`, `valueAt_ofGraph`: reading
after setting gives the value set, every other key is as before, and a fresh map
reads as its fill value everywhere.
-/

namespace NetworkFlow

/-- A map from the nodes or arcs of one graph to values. -/
structure KeyedMap (kind : KeyKind) (α : Type) where
  graph : GraphId
  values : Array α
  fill : α

/-- A map over nodes. -/
abbrev NodeMap := KeyedMap .node

/-- A map over arcs. -/
abbrev ArcMap := KeyedMap .arc

namespace KeyedMap

variable {kind : KeyKind} {α : Type}

/-- The map over a graph that reads as one value everywhere. -/
def ofGraph (g : Digraph) (kind : KeyKind) (fill : α) : KeyedMap kind α where
  graph := g.id
  values := Array.replicate (g.count kind) fill
  fill := fill

/-- The value at a number, for callers that know whose number it is. -/
def valueAt (m : KeyedMap kind α) (index : Nat) : α := m.values.getD index m.fill

/-- The values as long as needed to hold the number `index`. -/
def grown (m : KeyedMap kind α) (index : Nat) : Array α :=
  if index < m.values.size then m.values
  else m.values ++ Array.replicate (index + 1 - m.values.size) m.fill

/-- Gives the number `index` a value. -/
def setAt (m : KeyedMap kind α) (index : Nat) (value : α) : KeyedMap kind α :=
  { m with values := (m.grown index).setIfInBounds index value }

/-- The value of a key. -/
def get (m : KeyedMap kind α) (key : Key kind) : Except Error α :=
  if key.graph = m.graph then .ok (m.valueAt key.index) else .error .foreignIdentity

/-- Gives a key a value. -/
def set (m : KeyedMap kind α) (key : Key kind) (value : α) :
    Except Error (KeyedMap kind α) :=
  if key.graph = m.graph then .ok (m.setAt key.index value) else .error .foreignIdentity

/-- The keys of its graph have values. -/
theorem get_of_graph {m : KeyedMap kind α} {key : Key kind} (h : m.graph = key.graph) :
    m.get key = .ok (m.valueAt key.index) := if_pos h.symm

/-- The keys of its graph can be given values. -/
theorem set_of_graph {m : KeyedMap kind α} {key : Key kind} (h : m.graph = key.graph) (value : α) :
    m.set key value = .ok (m.setAt key.index value) := if_pos h.symm

theorem valueAt_ofGraph (g : Digraph) (fill : α) (index : Nat) :
    (ofGraph g kind fill).valueAt index = fill := by
  simp only [ofGraph, valueAt, Array.getD_eq_getD_getElem?, Array.getElem?_replicate]
  split <;> rfl

theorem size_grown (m : KeyedMap kind α) (index : Nat) :
    (m.grown index).size = max m.values.size (index + 1) := by
  unfold grown
  split
  · omega
  · simp
    omega

theorem getD_grown (m : KeyedMap kind α) (index i : Nat) :
    (m.grown index).getD i m.fill = m.valueAt i := by
  unfold grown valueAt
  split
  · rfl
  · simp only [Array.getD_eq_getD_getElem?, Array.getElem?_append]
    split
    · rfl
    · rename_i h
      rw [show m.values[i]? = none from Array.getElem?_eq_none (by omega), Array.getElem?_replicate]
      split <;> rfl

theorem valueAt_set_self (m : KeyedMap kind α) (index : Nat) (value : α) :
    (m.setAt index value).valueAt index = value := by
  have h : index < (m.grown index).size := by rw [size_grown]; omega
  simp [valueAt, setAt, Array.getD_eq_getD_getElem?, h]

theorem valueAt_set_of_ne (m : KeyedMap kind α) {index i : Nat} (value : α) (h : index ≠ i) :
    (m.setAt index value).valueAt i = m.valueAt i := by
  rw [← getD_grown m index i]
  simp [valueAt, setAt, Array.getD_eq_getD_getElem?, Array.getElem?_setIfInBounds_ne h]

end KeyedMap

end NetworkFlow
