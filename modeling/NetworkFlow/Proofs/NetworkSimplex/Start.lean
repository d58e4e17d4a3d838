import NetworkFlow.Proofs.NetworkSimplex.Pivot
import NetworkFlow.Proofs.Prepared

/-!
# The tableau of a problem and the basis to start from

The arcs of the tableau are those of the problem and the artificial ones. What
leaves a node in the tableau is what the arcs of the problem take out of it and
what its artificial arc does. With all supplies on the artificial arcs, the first
basis is consistent.

## Main results

* `outflow_below`: the balance of a node in the tableau.
* `consistent_start`: the first basis is consistent.
-/

namespace NetworkFlow.NetworkSimplex

open Finset
open scoped ExactCosts

variable {n m : Nat}

/-- The part of a flow of the tableau that is on the arcs of the problem. -/
def ownPart (flow : Table Int (m + n)) : Table Int m := .ofFn fun a => flow[Fin.castAdd n a]

@[simp] theorem getElem_ownPart (flow : Table Int (m + n)) (a : Fin m) :
    (ownPart flow)[a] = flow[Fin.castAdd n a] := by
  simp [ownPart]

namespace Tableau

section

variable {α : Type} (p : Problem n m α) (rule : PivotRule) (dear : α)

@[simp] theorem tail_castAdd (a : Fin m) :
    (ofProblem p rule dear).tail[Fin.castAdd n a] = below p.tail[a] := by
  simp [ofProblem]

@[simp] theorem head_castAdd (a : Fin m) :
    (ofProblem p rule dear).head[Fin.castAdd n a] = below p.head[a] := by
  simp [ofProblem]

@[simp] theorem cap_castAdd (a : Fin m) :
    (ofProblem p rule dear).cap[Fin.castAdd n a] = p.cap[a] := by
  simp [ofProblem]

@[simp] theorem cost_castAdd (a : Fin m) :
    (ofProblem p rule dear).cost[Fin.castAdd n a] = p.cost[a] := by
  simp [ofProblem]

@[simp] theorem tail_artificial (v : Fin n) :
    (ofProblem p rule dear).tail[artificial m v] =
      if p.supply[v] < 0 then root n else below v := by
  simp [ofProblem, artificial]

@[simp] theorem head_artificial (v : Fin n) :
    (ofProblem p rule dear).head[artificial m v] =
      if p.supply[v] < 0 then below v else root n := by
  simp [ofProblem, artificial]

@[simp] theorem cap_artificial (v : Fin n) :
    (ofProblem p rule dear).cap[artificial m v] = noCapacity := by
  simp [ofProblem, artificial]

@[simp] theorem cost_artificial (v : Fin n) :
    (ofProblem p rule dear).cost[artificial m v] = dear := by
  simp [ofProblem, artificial]

end

/-- What leaves a node in the tableau leaves it along the arcs of the problem and along its
artificial arc. -/
theorem outflow_below {α : Type} (p : Problem n m α) (rule : PivotRule) (dear : α)
    (flow : Table Int (m + n)) (v : Fin n) :
    (ofProblem p rule dear).outflow flow (below v) = p.outflow (ownPart flow) v +
      if p.supply[v] < 0 then -flow[artificial m v] else flow[artificial m v] := by
  have hbelow : ∀ u : Fin n, below u = below v ↔ u = v :=
    fun u => ⟨below_injective, fun h => h ▸ rfl⟩
  have hroot : root n ≠ below v := (below_ne_root v).symm
  have hartificial : ∀ w : Fin n,
      ((if (ofProblem p rule dear).tail[artificial m w] = below v
          then flow[artificial m w] else 0) -
        if (ofProblem p rule dear).head[artificial m w] = below v
          then flow[artificial m w] else 0) =
      if w = v then (if p.supply[v] < 0 then -flow[artificial m v] else flow[artificial m v])
        else 0 := by
    intro w
    rw [tail_artificial, head_artificial]
    by_cases hw : w = v
    · subst hw
      by_cases hs : p.supply[w] < 0
      · simp [hs, hroot]
      · simp [hs, hroot]
    · by_cases hs : p.supply[w] < 0
      · simp [hs, hroot, hbelow, hw]
      · simp [hs, hroot, hbelow, hw]
  unfold Network.outflow
  rw [Fin.sum_univ_add]
  congr 1
  · apply sum_congr rfl
    intro a _
    rw [tail_castAdd, head_castAdd, getElem_ownPart]
    simp only [hbelow]
  · refine (sum_congr rfl fun w _ => hartificial w).trans ?_
    rw [sum_ite_eq', if_pos (mem_univ v)]

end Tableau

/-- A supply fits on its artificial arc. -/
theorem natAbs_le_noCapacity {α : Type} {p : Problem n m α} (hp : p.amounts.Prepared) (v : Fin n) :
    (p.supply[v].natAbs : Int) ≤ noCapacity := by
  have h : |p.supply[v]| ≤ Amount.loadLimit := hp.abs_supply_le v
  have hlimit : Amount.loadLimit ≤ noCapacity := by decide
  rw [Int.natCast_natAbs]
  exact le_trans h hlimit

/-- The tree of artificial arcs before its depths and potentials are refreshed. -/
def unsettled {α : Type} [Scalar α] (t : Tableau n m α) (p : Problem n m α) : Basis n m α where
  flow := Table.const m (0 : Int) ++ p.supply.map fun s => (s.natAbs : Int)
  state := Table.const m ArcState.lower ++ Table.const n ArcState.tree
  parent := .const n (root n)
  link := .ofFn (artificial m)
  depth := .const (n + 1) 0
  potential := .const (n + 1) 0
  children := (List.finRange n).foldl (fun s v => s.link v (root n)) (.empty n)
  bland := t.rule = .bland
  cursor := 0

section Unsettled

variable {α : Type} [Scalar α] (t : Tableau n m α) (p : Problem n m α)

@[simp] theorem flow_unsettled_castAdd (a : Fin m) :
    (unsettled t p).flow[Fin.castAdd n a] = 0 := by
  simp [unsettled]

@[simp] theorem flow_unsettled_artificial (v : Fin n) :
    (unsettled t p).flow[artificial m v] = (p.supply[v].natAbs : Int) := by
  simp [unsettled, artificial]

@[simp] theorem state_unsettled_castAdd (a : Fin m) :
    (unsettled t p).state[Fin.castAdd n a] = .lower := by
  simp [unsettled]

@[simp] theorem state_unsettled_artificial (v : Fin n) :
    (unsettled t p).state[artificial m v] = .tree := by
  simp [unsettled, artificial]

@[simp] theorem parent_unsettled (v : Fin n) : (unsettled t p).parent[v] = root n := by
  simp [unsettled]

@[simp] theorem link_unsettled (v : Fin n) : (unsettled t p).link[v] = artificial m v := by
  simp [unsettled]

theorem unsettled_root :
    (unsettled t p).depth[root n] = 0 ∧ (unsettled t p).potential[root n] = 0 := by
  simp [unsettled]

/-- Exactly the artificial arcs are in the tree. -/
theorem state_unsettled_eq_tree (a : Fin (m + n)) :
    (unsettled t p).state[a] = .tree ↔ ∃ v : Fin n, (unsettled t p).link[v] = a := by
  refine Fin.addCases (fun a => ?_) (fun v => ?_) a
  · simp only [state_unsettled_castAdd, link_unsettled, reduceCtorEq, false_iff, not_exists]
    intro v hv
    have := congrArg Fin.val hv
    simp only [artificial, Fin.val_natAdd, Fin.val_castAdd] at this
    omega
  · exact ⟨fun _ => ⟨v, link_unsettled t p v⟩, fun _ => state_unsettled_artificial t p v⟩

/-- All nodes are children of the root, the last one first. -/
theorem linked_unsettled : (unsettled t p).children.Linked
    (Function.update (fun _ => []) (root n) (List.finRange n).reverse) := by
  have h := (Siblings.linked_empty n).foldl_link (root n) (List.nodup_finRange n)
    fun _ _ _ => List.not_mem_nil
  rwa [List.append_nil] at h

theorem children_unsettled_root :
    (unsettled t p).children[root n] = (List.finRange n).reverse := by
  rw [(linked_unsettled t p).getElem_eq, Function.update_self]

/-- The first refresh goes through all nodes in one layer. -/
theorem start_eq : Basis.start t p =
    Basis.refresh t (unsettled t p) (n + 1) (List.finRange n).reverse := by
  rw [← children_unsettled_root t p]
  rfl

theorem hung_unsettled (rule : PivotRule) (dear : α) :
    Hung (Tableau.ofProblem p rule dear) (unsettled (Tableau.ofProblem p rule dear) p) := by
  refine ⟨fun v => ?_, fun u v => ?_, (linked_unsettled _ p).self,
    fun u => if u = root n then 0 else 1, ?_, ?_⟩
  · unfold Joins
    by_cases hs : p.supply[v] < 0 <;> simp [hs]
  · rw [(linked_unsettled _ p).getElem_eq, parent_unsettled]
    by_cases hu : u = root n
    · simp [hu]
    · rw [Function.update_of_ne hu]
      simp [Ne.symm hu]
  · simp
  · intro v
    simp [below_ne_root]

/-- All nodes hang equally deep and are still to be settled. -/
theorem layered_unsettled (rule : PivotRule) (dear : α) :
    Layered (Tableau.ofProblem p rule dear) (unsettled (Tableau.ofProblem p rule dear) p)
      (fun u => if u = root n then 0 else 1) 1 (List.finRange n).reverse where
  hung := hung_unsettled p rule dear
  depths := ⟨by simp, fun v => by simp [below_ne_root]⟩
  depth_eq v _ := by simp [below_ne_root]
  settled_or v := Or.inr ⟨v, by simp, (hung_unsettled p rule dear).onWay_self v⟩

/-- Refreshing the depths and potentials of the artificial arcs makes them a spanning tree. -/
theorem start_spec (rule : PivotRule) (dear : α) :
    (Basis.start (Tableau.ofProblem p rule dear) p).flow =
        (unsettled (Tableau.ofProblem p rule dear) p).flow ∧
      (Basis.start (Tableau.ofProblem p rule dear) p).state =
        (unsettled (Tableau.ofProblem p rule dear) p).state ∧
      Spanning (Tableau.ofProblem p rule dear)
        (Basis.start (Tableau.ofProblem p rule dear) p) := by
  have hlayered := layered_unsettled p rule dear
  obtain ⟨depth, potential, heq, hroot₁, hroot₂, hsettled⟩ :=
    exists_refresh hlayered (show n + 1 ≤ 1 + (n + 1) by omega)
  have hhung := hlayered.hung
  have hroot := unsettled_root (Tableau.ofProblem p rule dear) p
  have hspan := state_unsettled_eq_tree (Tableau.ofProblem p rule dear) p
  rw [start_eq, heq]
  exact ⟨rfl, rfl, ⟨hhung.joins, hhung.mem_children, hhung.linked, hhung.exists_depths⟩,
    hroot₁.trans hroot.1, hroot₂.trans hroot.2, hsettled, hspan⟩

end Unsettled

/-- Only the artificial arcs carry anything, and they carry the supplies. -/
theorem outflow_unsettled {α : Type} [Scalar α] (p : Problem n m α) (rule : PivotRule) (dear : α)
    (v : Fin n) :
    (Tableau.ofProblem p rule dear).outflow (unsettled (Tableau.ofProblem p rule dear) p).flow
      (below v) = p.supply[v] := by
  have hzero : p.outflow (ownPart (unsettled (Tableau.ofProblem p rule dear) p).flow) v = 0 := by
    unfold Network.outflow
    apply sum_eq_zero
    intro a _
    rw [getElem_ownPart, flow_unsettled_castAdd]
    simp
  rw [Tableau.outflow_below, hzero, flow_unsettled_artificial]
  split <;> omega

/-- The first basis is consistent. -/
theorem consistent_start {α : Type} [Scalar α] {p : Problem n m α} (hp : p.amounts.Prepared)
    (rule : PivotRule) (dear : α) :
    Consistent (Tableau.ofProblem p rule dear) p.supply
      (Basis.start (Tableau.ofProblem p rule dear) p) := by
  obtain ⟨hflow, hstate, hspan⟩ := start_spec p rule dear
  refine ⟨hspan, fun a => ?_, fun a => ?_, fun a => ?_, fun v => ?_⟩
  · rw [hflow]
    refine Fin.addCases (fun a => ?_) (fun v => ?_) a
    · rw [flow_unsettled_castAdd, Tableau.cap_castAdd]
      exact ⟨le_refl _, hp.cap_nonneg a⟩
    · rw [← artificial, flow_unsettled_artificial, Tableau.cap_artificial]
      exact ⟨by omega, natAbs_le_noCapacity hp v⟩
  · rw [hflow, hstate]
    refine Fin.addCases (fun a => ?_) (fun v => ?_) a
    · exact fun _ => flow_unsettled_castAdd (Tableau.ofProblem p rule dear) p a
    · intro hs
      rw [← artificial, state_unsettled_artificial] at hs
      cases hs
  · rw [hflow, hstate]
    refine Fin.addCases (fun a => ?_) (fun v => ?_) a
    · intro hs
      rw [state_unsettled_castAdd] at hs
      cases hs
    · intro hs
      rw [← artificial, state_unsettled_artificial] at hs
      cases hs
  · rw [hflow]
    exact outflow_unsettled p rule dear v

end NetworkFlow.NetworkSimplex
