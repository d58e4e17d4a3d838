import NetworkFlow.Proofs.NetworkSimplex.Siblings
import NetworkFlow.Proofs.NetworkSimplex.Tree

/-!
# Hung trees and their refreshed depths and potentials

The parents, links and children of a basis say the same tree in three ways
(`Hung`). The depths and potentials follow from it, node by node from the parent
(`Settled`). After the tree has changed below some node, `refresh` settles that
node, then its children, and so on.

The invariant of `refresh` is that every node that is not settled has a node of
the current layer on its way up. All nodes of a layer are equally deep and the
next layer is deeper, so the layers end before the count does.

## Main results

* `Layered.deeper`: settling a layer leads to the next one.
* `exists_refresh`: after `refresh`, every node is settled and nothing else has changed.
-/

namespace NetworkFlow.NetworkSimplex

variable {n m : Nat} {α : Type} {t : Tableau n m α} {b : Basis n m α}

/-- The arc joins two nodes, in one direction or the other. -/
def Joins (t : Tableau n m α) (a : Fin (m + n)) (u v : Fin (n + 1)) : Prop :=
  (t.tail[a] = u ∧ t.head[a] = v) ∨ (t.head[a] = u ∧ t.tail[a] = v)

/-- Parents, links and children of a basis are those of one tree. -/
structure Hung (t : Tableau n m α) (b : Basis n m α) : Prop where
  joins : ∀ v : Fin n, Joins t b.link[v] (below v) b.parent[v]
  mem_children : ∀ (u : Fin (n + 1)) (v : Fin n), v ∈ b.children[u] ↔ b.parent[v] = u
  linked : b.children.Linked fun u => b.children[u]
  exists_depths : ∃ depth, Depths b.parent depth

theorem Joins.symm {a : Fin (m + n)} {u v : Fin (n + 1)} (h : Joins t a u v) : Joins t a v u := by
  rcases h with ⟨h₁, h₂⟩ | ⟨h₁, h₂⟩
  · exact Or.inr ⟨h₂, h₁⟩
  · exact Or.inl ⟨h₂, h₁⟩

/-- An arc joins only one pair of nodes. -/
theorem Joins.eq_or_eq {a : Fin (m + n)} {u v u' v' : Fin (n + 1)} (h : Joins t a u v)
    (h' : Joins t a u' v') : (u' = u ∧ v' = v) ∨ (u' = v ∧ v' = u) := by
  rcases h with ⟨rfl, rfl⟩ | ⟨rfl, rfl⟩ <;> rcases h' with ⟨rfl, rfl⟩ | ⟨rfl, rfl⟩ <;> simp

/-- Different nodes have different links: otherwise each would be the parent of the other. -/
theorem Hung.link_injective (h : Hung t b) {u v : Fin n} (heq : b.link[u] = b.link[v]) : u = v := by
  obtain ⟨depth, hd⟩ := h.exists_depths
  have hu := h.joins u
  rw [heq] at hu
  rcases hu.eq_or_eq (h.joins v) with ⟨h₁, -⟩ | ⟨h₁, h₂⟩
  · exact (below_injective h₁).symm
  · have hu := hd.step u
    have hv := hd.step v
    rw [← h₁] at hu
    rw [h₂] at hv
    omega

theorem Hung.onWay_self (h : Hung t b) (v : Fin n) : OnWay b.parent v (below v) := by
  obtain ⟨depth, hd⟩ := h.exists_depths
  exact (hd.onWay_below v v).mpr (Or.inl rfl)

variable [Scalar α]

/-- The depth and the potential of a node are what its parent makes them. -/
def Settled (t : Tableau n m α) (b : Basis n m α) (v : Fin n) : Prop :=
  b.depth[below v] = b.depth[b.parent[v]] + 1 ∧
    b.potential[below v] = Basis.linkedPotential t b v

/-- The tree of a basis spans the nodes; its depths and potentials are refreshed, and the arcs
in the state of a tree arc are its links. -/
structure Spanning (t : Tableau n m α) (b : Basis n m α) : Prop extends Hung t b where
  depth_root : b.depth[root n] = 0
  potential_root : b.potential[root n] = 0
  settled : ∀ v, Settled t b v
  state_tree : ∀ a : Fin (m + n), b.state[a] = .tree ↔ ∃ v : Fin n, b.link[v] = a

theorem Spanning.depths (h : Spanning t b) : Depths b.parent fun u => b.depth[u] :=
  ⟨h.depth_root, fun v => (h.settled v).1⟩

/-- The potential that the link of a node asks for depends on that of the parent only. -/
theorem linkedPotential_update {v : Fin n} (depth : Table Nat (n + 1))
    {potential : Table α (n + 1)} (h : potential[b.parent[v]] = b.potential[b.parent[v]]) :
    Basis.linkedPotential t { b with depth := depth, potential := potential } v =
      Basis.linkedPotential t b v := by
  simp only [Basis.linkedPotential, h]

/-- The depths and potentials are those of a basis, but that each node of a layer, none of them
the parent of another one, has what its parent makes it. -/
structure SettledLayer (t : Tableau n m α) (b : Basis n m α) (layer : List (Fin n))
    (depth : Table Nat (n + 1)) (potential : Table α (n + 1)) : Prop where
  apart : ∀ v ∈ layer, ∀ w ∈ layer, b.parent[v] ≠ below w
  same : ∀ u : Fin (n + 1), (∀ v ∈ layer, u ≠ below v) →
    depth[u] = b.depth[u] ∧ potential[u] = b.potential[u]
  layer : ∀ v ∈ layer, depth[below v] = b.depth[b.parent[v]] + 1 ∧
    potential[below v] = Basis.linkedPotential t b v

theorem exists_foldl_settle {layer : List (Fin n)}
    (hlayer : ∀ v ∈ layer, ∀ w ∈ layer, b.parent[v] ≠ below w) :
    ∃ depth potential,
      layer.foldl (Basis.settle t) b = { b with depth := depth, potential := potential } ∧
      SettledLayer t b layer depth potential := by
  induction layer generalizing b with
  | nil => exact ⟨b.depth, b.potential, rfl, hlayer, by simp, by simp⟩
  | cons v rest ih =>
      have hrest : ∀ x ∈ rest, ∀ w ∈ rest, (Basis.settle t b v).parent[x] ≠ below w :=
        fun x hx w hw => hlayer x (by simp [hx]) w (by simp [hw])
      obtain ⟨depth, potential, heq, -, hsame, hset⟩ := ih hrest
      -- what the first node changes is no parent of the others
      have hother : ∀ u, u ≠ below v → (Basis.settle t b v).depth[u] = b.depth[u] ∧
          (Basis.settle t b v).potential[u] = b.potential[u] := by
        intro u hu
        exact ⟨Table.getElem_set_of_ne _ _ hu.symm, Table.getElem_set_of_ne _ _ hu.symm⟩
      have hself : (Basis.settle t b v).depth[below v] = b.depth[b.parent[v]] + 1 ∧
          (Basis.settle t b v).potential[below v] = Basis.linkedPotential t b v :=
        ⟨Table.getElem_set_self .., Table.getElem_set_self ..⟩
      have hmem : ∀ w ∈ rest, depth[below w] = b.depth[b.parent[w]] + 1 ∧
          potential[below w] = Basis.linkedPotential t b w := by
        intro w hw
        obtain ⟨h₁, h₂⟩ := hset w hw
        obtain ⟨hdepth, hpotential⟩ := hother b.parent[w] (hlayer w (by simp [hw]) v (by simp))
        refine ⟨h₁.trans (congrArg (· + 1) hdepth), h₂.trans ?_⟩
        exact linkedPotential_update _ hpotential
      refine ⟨depth, potential, heq, hlayer, ?_, ?_⟩
      · intro u hu
        obtain ⟨h₁, h₂⟩ := hsame u fun w hw => hu w (by simp [hw])
        obtain ⟨h₃, h₄⟩ := hother u (hu v (by simp))
        exact ⟨h₁.trans h₃, h₂.trans h₄⟩
      · intro w hw
        by_cases hwr : w ∈ rest
        · exact hmem w hwr
        · obtain rfl : w = v := (List.mem_cons.mp hw).resolve_right hwr
          obtain ⟨h₁, h₂⟩ := hsame (below w) fun x hx heq => hwr (below_injective heq ▸ hx)
          exact ⟨h₁.trans hself.1, h₂.trans hself.2⟩

section Layer

variable {layer : List (Fin n)} {depth : Table Nat (n + 1)} {potential : Table α (n + 1)}

theorem SettledLayer.settled (h : SettledLayer t b layer depth potential) {v : Fin n}
    (hv : v ∈ layer) : Settled t { b with depth := depth, potential := potential } v := by
  obtain ⟨h₁, h₂⟩ := h.layer v hv
  obtain ⟨h₃, h₄⟩ := h.same b.parent[v] fun w hw => h.apart v hv w hw
  refine ⟨?_, ?_⟩
  · show depth[below v] = depth[b.parent[v]] + 1
    rw [h₁, h₃]
  · show potential[below v] = _
    rw [h₂]
    exact (linkedPotential_update _ h₄).symm

/-- A settled node stays settled if neither the node nor its parent has changed. -/
theorem SettledLayer.settled_of_settled (h : SettledLayer t b layer depth potential) {v : Fin n}
    (hv : v ∉ layer) (hparent : ∀ w ∈ layer, b.parent[v] ≠ below w) (hs : Settled t b v) :
    Settled t { b with depth := depth, potential := potential } v := by
  obtain ⟨h₁, h₂⟩ := h.same (below v) fun w hw heq => hv (below_injective heq ▸ hw)
  obtain ⟨h₃, h₄⟩ := h.same b.parent[v] hparent
  refine ⟨?_, ?_⟩
  · show depth[below v] = depth[b.parent[v]] + 1
    rw [h₁, h₃, hs.1]
  · show potential[below v] = _
    rw [h₂, hs.2]
    exact (linkedPotential_update _ h₄).symm

/-- What is not settled after a layer is below one of the children of the layer. -/
theorem SettledLayer.settled_or_onWay (h : SettledLayer t b layer depth potential) (hb : Hung t b)
    (hrest : ∀ v, Settled t b v ∨ ∃ w ∈ layer, OnWay b.parent w (below v)) (v : Fin n) :
    Settled t { b with depth := depth, potential := potential } v ∨
      ∃ w ∈ layer.flatMap (fun v => b.children[below v]), OnWay b.parent w (below v) := by
  obtain ⟨_, hd⟩ := hb.exists_depths
  have hchild : ∀ y w, w ∈ layer → b.parent[y] = below w →
      y ∈ layer.flatMap (fun v => b.children[below v]) := by
    intro y w hw hy
    exact List.mem_flatMap.mpr ⟨w, hw, (hb.mem_children _ _).mpr hy⟩
  by_cases hv : v ∈ layer
  · exact Or.inl (h.settled hv)
  · by_cases hp : ∃ w ∈ layer, b.parent[v] = below w
    · obtain ⟨w, hw, hvw⟩ := hp
      exact Or.inr ⟨v, hchild v w hw hvw, (hd.onWay_below v v).mpr (Or.inl rfl)⟩
    · rcases hrest v with hs | ⟨w, hw, hon⟩
      · exact Or.inl (h.settled_of_settled hv (fun w hw heq => hp ⟨w, hw, heq⟩) hs)
      · have hwv : w ≠ v := fun heq => hv (heq ▸ hw)
        obtain ⟨y, hy, hon⟩ := hd.exists_child_onWay hon hwv
        exact Or.inr ⟨y, hchild y w hw hy, hon⟩

end Layer

/-- A refresh stands before a layer: the nodes of the layer are equally deep, and what is not settled
has one of them on its way up. -/
structure Layered (t : Tableau n m α) (b : Basis n m α) (depth : Fin (n + 1) → Nat) (k : Nat)
    (layer : List (Fin n)) : Prop where
  hung : Hung t b
  depths : Depths b.parent depth
  depth_eq : ∀ v ∈ layer, depth (below v) = k
  settled_or : ∀ v, Settled t b v ∨ ∃ w ∈ layer, OnWay b.parent w (below v)

section Layered

variable {depth : Fin (n + 1) → Nat} {k : Nat} {layer : List (Fin n)}

/-- No node of a layer is the parent of another one. -/
theorem Layered.apart (h : Layered t b depth k layer) {v w : Fin n} (hv : v ∈ layer)
    (hw : w ∈ layer) : b.parent[v] ≠ below w := by
  intro heq
  have hstep := h.depths.step v
  rw [heq, h.depth_eq v hv, h.depth_eq w hw] at hstep
  omega

/-- Settling a layer leads to the layer of its children, and changes only depths and potentials
below the root. -/
theorem Layered.deeper (h : Layered t b depth k layer) : ∃ depth' potential',
    layer.foldl (Basis.settle t) b = { b with depth := depth', potential := potential' } ∧
      depth'[root n] = b.depth[root n] ∧ potential'[root n] = b.potential[root n] ∧
      Layered t { b with depth := depth', potential := potential' } depth (k + 1)
        (layer.flatMap fun v => b.children[below v]) := by
  obtain ⟨depth', potential', heq, hset⟩ :=
    exists_foldl_settle (t := t) fun v hv w hw => h.apart hv hw
  obtain ⟨hroot₁, hroot₂⟩ := hset.same (root n) fun v _ => (below_ne_root v).symm
  refine ⟨depth', potential', heq, hroot₁, hroot₂,
    ⟨h.hung.joins, h.hung.mem_children, h.hung.linked, h.hung.exists_depths⟩, h.depths,
    fun v hv => ?_, hset.settled_or_onWay h.hung h.settled_or⟩
  obtain ⟨w, hw, hvw⟩ := List.mem_flatMap.mp hv
  rw [h.depths.step v, (h.hung.mem_children _ _).mp hvw, h.depth_eq w hw]

end Layered

/-- `refresh` settles every node if the count reaches below all layers. -/
theorem exists_refresh {depth : Fin (n + 1) → Nat} {count k : Nat} {layer : List (Fin n)}
    (h : Layered t b depth k layer) (hcount : n + 1 ≤ k + count) : ∃ depth' potential',
      Basis.refresh t b count layer = { b with depth := depth', potential := potential' } ∧
      depth'[root n] = b.depth[root n] ∧ potential'[root n] = b.potential[root n] ∧
      ∀ v, Settled t { b with depth := depth', potential := potential' } v := by
  induction count generalizing b k layer with
  | zero =>
      refine ⟨b.depth, b.potential, by cases layer <;> rfl, rfl, rfl, fun v => ?_⟩
      rcases h.settled_or v with hv | ⟨w, hw, -⟩
      · exact hv
      · have h₁ := h.depth_eq w hw
        have h₂ := h.depths.le_nodes (below w)
        omega
  | succ count ih =>
      cases layer with
      | nil =>
          refine ⟨b.depth, b.potential, rfl, rfl, rfl, fun v => ?_⟩
          rcases h.settled_or v with hv | ⟨w, hw, -⟩
          · exact hv
          · simp at hw
      | cons x xs =>
          obtain ⟨dep, pot, heq, hroot₁, hroot₂, hnext⟩ := h.deeper
          obtain ⟨dep', pot', heq', h₁, h₂, h₃⟩ := ih hnext (by omega)
          refine ⟨dep', pot', ?_, h₁.trans hroot₁, h₂.trans hroot₂, h₃⟩
          show Basis.refresh t ((x :: xs).foldl (Basis.settle t) b) count
            ((x :: xs).flatMap fun v => ((x :: xs).foldl (Basis.settle t) b).children[below v]) = _
          rw [heq]
          exact heq'

end NetworkFlow.NetworkSimplex
