import NetworkFlow.Graph.Digraph

/-!
# The keys of a graph

A graph has the keys that carry its identity and a number below the count of their kind
(`Digraph.Has`). These are the keys that it accepts, and the keys that it hands out. Every other key
is refused for one of two reasons: it carries another identity, or its number is not reached.

## Main results

* `check_eq_ok_iff`, `check_eq_error_iff`: which keys are accepted, and why the others are not.
* `mem_keys`, `key_eq_ok`, `has_of_key`: the keys that are handed out.
-/

namespace NetworkFlow

namespace Digraph

variable {g : Digraph} {kind : KeyKind} {key : Key kind}

/-- The key carries the identity of the graph and a number of one of its elements. -/
def Has (g : Digraph) (key : Key kind) : Prop := key.graph = g.id ∧ key.index < g.count kind

instance (g : Digraph) (key : Key kind) : Decidable (g.Has key) :=
  inferInstanceAs (Decidable (_ ∧ _))

theorem check_of_has (h : g.Has key) : g.check key = .ok ⟨key.index, h.2⟩ := by
  unfold check
  rw [if_pos h.1, dif_pos h.2]

theorem has_of_check {i : Fin (g.count kind)} (h : g.check key = .ok i) :
    g.Has key ∧ key.index = i := by
  rw [check_eq_ok] at h
  subst h
  exact ⟨⟨rfl, i.isLt⟩, rfl⟩

/-- The keys that are accepted are those of the graph. -/
theorem check_eq_ok_iff : (∃ i, g.check key = .ok i) ↔ g.Has key :=
  ⟨fun ⟨_, h⟩ => (has_of_check h).1, fun h => ⟨_, check_of_has h⟩⟩

/-- A key is refused for its identity, or else for its number. -/
theorem check_eq_error_iff {cause : Error} : g.check key = .error cause ↔
    (key.graph ≠ g.id ∧ cause = .foreignIdentity) ∨
      (key.graph = g.id ∧ g.count kind ≤ key.index ∧ cause = .indexOutOfRange) := by
  unfold check
  by_cases hgraph : key.graph = g.id
  · by_cases hindex : key.index < g.count kind
    · simp [hgraph, hindex, Nat.not_le.mpr hindex]
    · simp [hgraph, hindex, Nat.not_lt.mp hindex, eq_comm]
  · simp [hgraph, eq_comm]

/-- The numbers below the count are those of keys. -/
theorem key_eq_ok {index : Nat} :
    g.key kind index = .ok key ↔ index < g.count kind ∧ key = ⟨g.id, index⟩ := by
  unfold Digraph.key
  split <;> simp [*, eq_comm]

theorem has_of_key {index : Nat} (h : g.key kind index = .ok key) : g.Has key := by
  obtain ⟨hindex, rfl⟩ := key_eq_ok.mp h
  exact ⟨rfl, hindex⟩

theorem mem_keys : key ∈ g.keys kind ↔ g.Has key := by
  obtain ⟨graph, index⟩ := key
  simp only [keys, List.mem_map, List.mem_range, Key.mk.injEq, Has]
  constructor
  · rintro ⟨i, hi, rfl, rfl⟩
    exact ⟨rfl, hi⟩
  · rintro ⟨rfl, hindex⟩
    exact ⟨index, hindex, rfl, rfl⟩

end Digraph

end NetworkFlow
