import Mathlib.Data.Fintype.Card
import Mathlib.Data.List.Nodup
import NetworkFlow.NetworkSimplex.Basis

/-!
# Trees given by parents

A basis gives every node but the root a parent. Following the parents upward is
an `Ascent`; the parents form a tree if every node has a depth that is one more
than that of its parent (`Depths`), for then every ascent ends at the root.

Exchanging an arc moves subtrees, one node at a time. A node can be hung below
any node that it is not itself above: `Depths.exists_move` gives the new depths.

## Main results

* `Depths.exists_ascent`: every node has a way up to the root.
* `Depths.le_nodes`: no node is deeper than there are nodes.
* `Depths.exists_move`: moving a subtree leaves a tree.
-/

namespace NetworkFlow.NetworkSimplex

variable {n : Nat}

theorem below_ne_root (v : Fin n) : below v ≠ root n :=
  Fin.castSucc_ne_last v

theorem below_injective {u v : Fin n} (h : below u = below v) : u = v :=
  Fin.castSucc_injective n h

theorem eq_root_or_below (u : Fin (n + 1)) : u = root n ∨ ∃ v : Fin n, u = below v := by
  rcases Fin.eq_castSucc_or_eq_last u with ⟨v, rfl⟩ | rfl
  · exact Or.inr ⟨v, rfl⟩
  · exact Or.inl rfl

@[simp] theorem own?_below (v : Fin n) : own? (below v) = some v := by
  simp [own?, below]

@[simp] theorem own?_root : own? (root n) = none := by
  simp [own?, root]

/-- The way from `u` up to `w` passes the nodes of the list and leaves out `w`. -/
def Ascent (parent : Table (Fin (n + 1)) n) (u : Fin (n + 1)) :
    List (Fin n) → Fin (n + 1) → Prop
  | [], w => u = w
  | v :: vs, w => u = below v ∧ Ascent parent parent[v] vs w

namespace Ascent

variable {parent parent' : Table (Fin (n + 1)) n} {u w : Fin (n + 1)} {vs ws : List (Fin n)}

theorem nil (u : Fin (n + 1)) : Ascent parent u [] u := rfl

theorem cons {v : Fin n} (h : Ascent parent parent[v] vs w) :
    Ascent parent (below v) (v :: vs) w :=
  ⟨rfl, h⟩

theorem append {x : Fin (n + 1)} (h : Ascent parent u vs w) (h' : Ascent parent w ws x) :
    Ascent parent u (vs ++ ws) x := by
  induction vs generalizing u with
  | nil =>
      obtain rfl : u = w := h
      exact h'
  | cons v vs ih => exact ⟨h.1, ih h.2⟩

/-- A way up stays if the nodes on it keep their parents. -/
theorem congr (h : Ascent parent u vs w) (hsame : ∀ v ∈ vs, parent'[v] = parent[v]) :
    Ascent parent' u vs w := by
  induction vs generalizing u with
  | nil => exact h
  | cons v vs ih =>
      refine ⟨h.1, ?_⟩
      rw [hsame v (by simp)]
      exact ih h.2 fun x hx => hsame x (by simp [hx])

theorem exists_tail {v : Fin n} (h : Ascent parent (below v) vs (root n)) :
    ∃ ws, vs = v :: ws ∧ Ascent parent parent[v] ws (root n) := by
  cases vs with
  | nil => exact absurd h (below_ne_root v)
  | cons x xs =>
      obtain rfl := below_injective h.1
      exact ⟨xs, rfl, h.2⟩

theorem eq_nil (h : Ascent parent (root n) vs w) : vs = [] ∧ w = root n := by
  cases vs with
  | nil => exact ⟨rfl, h.symm⟩
  | cons x xs => exact absurd h.1.symm (below_ne_root x)

/-- There is only one way up to the root. -/
theorem unique (h : Ascent parent u vs (root n)) (h' : Ascent parent u ws (root n)) : vs = ws := by
  induction vs generalizing u ws with
  | nil =>
      obtain rfl : u = root n := h
      exact (eq_nil h').1.symm
  | cons v vs ih =>
      obtain ⟨rfl, h⟩ := h
      obtain ⟨xs, rfl, htail⟩ := exists_tail h'
      rw [ih h htail]

/-- The part of a way up that ends with a node on it. -/
theorem prefix_of_append {v : Fin n} (h : Ascent parent u (vs ++ v :: ws) w) :
    Ascent parent u (vs ++ [v]) parent[v] := by
  induction vs generalizing u with
  | nil => exact ⟨h.1, rfl⟩
  | cons x xs ih => exact ⟨h.1, ih h.2⟩

/-- A way up ends at the parent of its last node. -/
theorem parent_of_append {v : Fin n} (h : Ascent parent u (vs ++ [v]) w) : parent[v] = w := by
  induction vs generalizing u with
  | nil => exact h.2
  | cons x xs ih => exact ih h.2

end Ascent

/-- The node `v` is passed, or left, on the way up from `u`. -/
def OnWay (parent : Table (Fin (n + 1)) n) (v : Fin n) (u : Fin (n + 1)) : Prop :=
  ∃ vs, Ascent parent u vs (root n) ∧ v ∈ vs

theorem not_onWay_root {parent : Table (Fin (n + 1)) n} {v : Fin n} :
    ¬ OnWay parent v (root n) := by
  rintro ⟨vs, hvs, hmem⟩
  rw [hvs.eq_nil.1] at hmem
  simp at hmem

theorem Ascent.onWay_iff {parent : Table (Fin (n + 1)) n} {u : Fin (n + 1)} {vs : List (Fin n)}
    (h : Ascent parent u vs (root n)) (v : Fin n) : OnWay parent v u ↔ v ∈ vs := by
  constructor
  · rintro ⟨ws, hws, hmem⟩
    rwa [h.unique hws]
  · intro hmem
    exact ⟨vs, h, hmem⟩

/-- Every node is one deeper than its parent, and the root has depth zero. -/
structure Depths (parent : Table (Fin (n + 1)) n) (depth : Fin (n + 1) → Nat) : Prop where
  root_eq : depth (root n) = 0
  step : ∀ v : Fin n, depth (below v) = depth parent[v] + 1

namespace Depths

variable {parent : Table (Fin (n + 1)) n} {depth : Fin (n + 1) → Nat}
  {u w : Fin (n + 1)} {vs : List (Fin n)}

theorem add_length (hd : Depths parent depth) (h : Ascent parent u vs w) :
    depth w + vs.length = depth u := by
  induction vs generalizing u with
  | nil =>
      obtain rfl : u = w := h
      rfl
  | cons v vs ih =>
      obtain ⟨rfl, h⟩ := h
      have h₁ := hd.step v
      have h₂ := ih h
      rw [List.length_cons]
      omega

theorem lt_of_mem (hd : Depths parent depth) (h : Ascent parent u vs w) {v : Fin n}
    (hv : v ∈ vs) : depth w < depth (below v) ∧ depth (below v) ≤ depth u := by
  induction vs generalizing u with
  | nil => simp at hv
  | cons x xs ih =>
      obtain ⟨rfl, h⟩ := h
      have hx := hd.step x
      rcases List.mem_cons.mp hv with rfl | hv
      · have := hd.add_length h
        omega
      · have := ih h hv
        omega

theorem nodup (hd : Depths parent depth) (h : Ascent parent u vs w) : vs.Nodup := by
  induction vs generalizing u with
  | nil => exact List.nodup_nil
  | cons v vs ih =>
      obtain ⟨rfl, h⟩ := h
      refine List.nodup_cons.mpr ⟨fun hv => ?_, ih h⟩
      have h₁ := (hd.lt_of_mem h hv).2
      have h₂ := hd.step v
      omega

theorem parent_ne (hd : Depths parent depth) (v : Fin n) : parent[v] ≠ below v := by
  intro h
  have := hd.step v
  rw [h] at this
  omega

theorem exists_ascent (hd : Depths parent depth) (u : Fin (n + 1)) :
    ∃ vs, Ascent parent u vs (root n) := by
  induction hk : depth u generalizing u with
  | zero =>
      rcases eq_root_or_below u with rfl | ⟨v, rfl⟩
      · exact ⟨[], Ascent.nil _⟩
      · have := hd.step v
        omega
  | succ k ih =>
      rcases eq_root_or_below u with rfl | ⟨v, rfl⟩
      · exact ⟨[], Ascent.nil _⟩
      · have := hd.step v
        obtain ⟨vs, hvs⟩ := ih parent[v] (by omega)
        exact ⟨v :: vs, Ascent.cons hvs⟩

theorem le_nodes (hd : Depths parent depth) (u : Fin (n + 1)) : depth u ≤ n := by
  obtain ⟨vs, hvs⟩ := hd.exists_ascent u
  have hlen := hd.add_length hvs
  have hcard := (hd.nodup hvs).length_le_card
  rw [Fintype.card_fin] at hcard
  rw [hd.root_eq] at hlen
  omega

theorem onWay_below (hd : Depths parent depth) (v x : Fin n) :
    OnWay parent v (below x) ↔ v = x ∨ OnWay parent v parent[x] := by
  constructor
  · rintro ⟨vs, hvs, hmem⟩
    obtain ⟨ws, rfl, hws⟩ := hvs.exists_tail
    rcases List.mem_cons.mp hmem with h | h
    · exact Or.inl h
    · exact Or.inr ⟨ws, hws, h⟩
  · rintro (rfl | ⟨ws, hws, hmem⟩)
    · obtain ⟨ws, hws⟩ := hd.exists_ascent parent[v]
      exact ⟨v :: ws, Ascent.cons hws, by simp⟩
    · exact ⟨x :: ws, Ascent.cons hws, by simp [hmem]⟩

/-- The way up to a node from below it comes through one of its children. -/
theorem exists_child_onWay (hd : Depths parent depth) {v x : Fin n}
    (h : OnWay parent v (below x)) (hne : v ≠ x) :
    ∃ y, parent[y] = below v ∧ OnWay parent y (below x) := by
  induction hk : depth (below x) generalizing x with
  | zero =>
      have := hd.step x
      omega
  | succ k ih =>
      have hself : OnWay parent x (below x) := (hd.onWay_below x x).mpr (Or.inl rfl)
      have hup : OnWay parent v parent[x] := ((hd.onWay_below v x).mp h).resolve_left hne
      rcases eq_root_or_below parent[x] with hp | ⟨z, hp⟩
      · rw [hp] at hup
        exact absurd hup not_onWay_root
      · by_cases hvz : v = z
        · exact ⟨x, by rw [hp, hvz], hself⟩
        · have hstep := hd.step x
          rw [hp] at hup hstep
          obtain ⟨y, hy, hyz⟩ := ih hup hvz (by omega)
          refine ⟨y, hy, (hd.onWay_below y x).mpr (Or.inr ?_)⟩
          rwa [hp]

/-- A node can be hung, with all that hangs below it, below a node that it is not
itself above. -/
theorem exists_move (hd : Depths parent depth) {v : Fin n} {a : Fin (n + 1)}
    (ha : ¬ OnWay parent v a) : ∃ depth', Depths (parent.set v a) depth' := by
  classical
  -- the nodes that move are those with `v` on their way up
  have hdeep : ∀ u, OnWay parent v u → depth (below v) ≤ depth u := by
    rintro u ⟨ws, hws, hmem⟩
    exact (hd.lt_of_mem hws hmem).2
  refine ⟨fun u =>
    if OnWay parent v u then depth u + depth a + 1 - depth (below v) else depth u, ?_, ?_⟩
  · simp only [not_onWay_root, if_false]
    exact hd.root_eq
  · intro x
    rw [Table.getElem_set]
    by_cases hx : v = x
    · subst hx
      have hself : OnWay parent v (below v) := (hd.onWay_below v v).mpr (Or.inl rfl)
      simp only [hself, ha, if_true, if_false]
      omega
    · have hiff : OnWay parent v (below x) ↔ OnWay parent v parent[x] := by
        rw [hd.onWay_below v x]
        simp [hx]
      have hstep := hd.step x
      by_cases hm : OnWay parent v parent[x]
      · have := hdeep _ hm
        simp only [hiff, hm, hx, if_true, if_false]
        omega
      · simp only [hiff, hm, hx, if_false]
        exact hstep

end Depths

end NetworkFlow.NetworkSimplex
