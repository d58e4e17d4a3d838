import Mathlib.Data.Nat.Bitwise
import NetworkFlow.Proofs.CapacityScaling.Passed
import NetworkFlow.Proofs.CostScaling.Amounts
import NetworkFlow.Proofs.MaxFlow.Maximal

/-!
# The residual arcs that the engines find at a node

The engines walk over the residual arcs that leave a node. These are sorted by their tails into one
array, and a node has the slice of it between two places. A residual arc is known by its number:
those of arc `a` are `2 * a` and, against the arc, `2 * a + 1`.

A loop has both of its residual arcs in one slice, parallel arcs are told apart by their numbers,
and the slice of a node without arcs is empty. Nothing is assumed of the network.

## Main results

* `ResidualArc.numbering`: the residual arcs are the numbers below twice the number of arcs.
* `Compressed.exists_place`: each of several different items is at one place, in the slice of its
  row.
* `adjacency_exact`: what capacity scaling, cost scaling and the maximum flow find at a node.
-/

namespace NetworkFlow

namespace ResidualArc

variable {m : Nat}

/-- The numbers of the residual arcs. -/
def numbering (m : Nat) : ResidualArc m ≃ Fin (2 * m) where
  toFun r := ⟨2 * r.arc + r.backward.toNat, by
    have := r.arc.isLt
    have := r.backward.toNat_lt
    omega⟩
  invFun k := ⟨⟨k / 2, by omega⟩, k.val % 2 = 1⟩
  left_inv r := by
    obtain ⟨a, backward⟩ := r
    cases backward
    · simp
    · simp [Fin.ext_iff]
      omega
  right_inv k := by
    rcases Nat.mod_two_eq_zero_or_one k.val with h | h <;> simp [Fin.ext_iff, h] <;> omega

theorem val_numbering (r : ResidualArc m) :
    (numbering m r).val = 2 * r.arc + r.backward.toNat := rfl

/-- The two residual arcs of an arc differ in the last bit of their numbers. -/
theorem val_numbering_reverse (r : ResidualArc m) :
    (numbering m r.reverse).val = (numbering m r).val ^^^ 1 := by
  have hdiv : ((numbering m r).val ^^^ 1) / 2 = (numbering m r).val / 2 := by
    simpa using Nat.xor_div_two (a := (numbering m r).val) (b := 1)
  have hmod : ((numbering m r).val ^^^ 1) % 2 = ((numbering m r).val + 1) % 2 := Nat.xor_mod_two_eq
  have htwin : (numbering m r.reverse).val = 2 * r.arc + (!r.backward).toNat := rfl
  generalize (numbering m r).val ^^^ 1 = twin at hdiv hmod
  rw [val_numbering] at hdiv hmod
  rw [htwin]
  cases h : r.backward <;> simp only [h, Bool.not_true, Bool.not_false, Bool.toNat_true,
    Bool.toNat_false] at hdiv hmod ⊢ <;> omega

/-- The residual arcs are listed in the order of their numbers. -/
theorem pairwise_all : (all m).Pairwise fun r s => numbering m r < numbering m s := by
  rw [all, List.pairwise_flatMap]
  refine ⟨fun a _ => ?_, (List.pairwise_lt_finRange m).imp fun {a b} hab r hr s hs => ?_⟩
  · simp [Fin.lt_def, val_numbering]
  · have hr : r.arc = a := by
      rcases List.mem_pair.mp hr with rfl | rfl <;> rfl
    have hs : s.arc = b := by
      rcases List.mem_pair.mp hs with rfl | rfl <;> rfl
    have := r.backward.toNat_lt
    rw [Fin.lt_def, val_numbering, val_numbering, hr, hs]
    omega

theorem nodup_all : (all m).Nodup :=
  pairwise_all.imp fun h heq => absurd (congrArg (numbering m) heq) (Fin.ne_of_lt h)

theorem length_all : (all m).length = 2 * m := by
  simp [all, List.length_flatMap]
  omega

end ResidualArc

/-! ## One place for every item -/

namespace Compressed

variable {n : Nat} {ι : Type} (row : ι → Fin n) (items : List ι)

theorem before_length : before row items n = items.length := by
  simp [before]

theorem size_ofList : (ofList row items).items.size = items.length :=
  (placed_foldl placed_nil rfl : Placed row items items _).size_eq

/-- Every place is in the slice of some row. -/
theorem exists_row {place : Nat} (h : place < items.length) :
    ∃ v : Fin n, (ofList row items).first[v.castSucc] ≤ place ∧
      place < (ofList row items).first[v.succ] := by
  simp only [getElem_first, Fin.val_castSucc, Fin.val_succ]
  have hreach : ∃ k, place < before row items k := ⟨n, by rwa [before_length]⟩
  -- the first row that ends after the place
  obtain ⟨k, hk⟩ : ∃ k, Nat.find hreach = k + 1 := by
    refine Nat.exists_eq_succ_of_ne_zero fun hzero => ?_
    have := Nat.find_spec hreach
    rw [hzero, before_zero] at this
    omega
  have hlt : place < before row items (k + 1) := hk ▸ Nat.find_spec hreach
  have hle : before row items k ≤ place := Nat.not_lt.mp (Nat.find_min hreach (by omega))
  have hn : k < n := by
    by_contra hn
    have := before_mono row items (show n ≤ k by omega)
    rw [before_length] at this
    omega
  exact ⟨⟨k, hn⟩, hle, hlt⟩

/-- What is at a place of a slice. -/
theorem getElem?_items {v : Fin n} {place : Nat}
    (hle : (ofList row items).first[v.castSucc] ≤ place)
    (hlt : place < (ofList row items).first[v.succ]) :
    (ofList row items).items[place]? =
      (items.filter (row · = v))[place - (ofList row items).first[v.castSucc]]? := by
  have hsize := getElem_first_le row items v.succ
  rw [← getElem_ofList, Array.getElem?_toList]
  show _ = (Array.extract _ _ _)[_]?
  rw [Array.getElem?_extract, size_ofList, if_pos (by omega)]
  congr 1
  omega

/-- The rows have as many items together as there are. -/
theorem sum_length_filter :
    ∑ v : Fin n, (items.filter (row · = v)).length = items.length := by
  induction items with
  | nil => simp
  | cons item items ih =>
      have hone : ∀ v : Fin n, ((item :: items).filter (row · = v)).length =
          (if row item = v then 1 else 0) + (items.filter (row · = v)).length := by
        intro v
        by_cases hv : row item = v <;> simp [hv, Nat.add_comm]
      simp only [hone, Finset.sum_add_distrib, ih, Finset.sum_ite_eq, Finset.mem_univ, if_true,
        List.length_cons]
      omega

variable {row items}

/-- Each of several different items is at one place, and that is in the slice of its row. -/
theorem exists_place (hnodup : items.Nodup) {item : ι} (hmem : item ∈ items) :
    ∃ place, (ofList row items).first[(row item).castSucc] ≤ place ∧
      place < (ofList row items).first[(row item).succ] ∧
      ∀ other, (ofList row items).items[other]? = some item ↔ other = place := by
  obtain ⟨i, hi, hitem⟩ := List.getElem_of_mem
    (List.mem_filter.mpr ⟨hmem, decide_eq_true rfl⟩ : item ∈ items.filter (row · = row item))
  have hslice : (ofList row items).first[(row item).succ] =
      (ofList row items).first[(row item).castSucc] + (items.filter (row · = row item)).length := by
    rw [getElem_first, getElem_first]
    exact before_succ row items (row item)
  refine ⟨(ofList row items).first[(row item).castSucc] + i, by omega, by omega, fun other => ?_⟩
  constructor
  · intro hother
    have hlt := size_ofList row items ▸ (Array.getElem?_eq_some_iff.mp hother).1
    obtain ⟨v, hle, hlt⟩ := exists_row row items hlt
    rw [getElem?_items row items hle hlt] at hother
    obtain rfl : row item = v := by
      simpa using (List.mem_filter.mp (List.mem_of_getElem? hother)).2
    obtain ⟨hplace, hother⟩ := List.getElem?_eq_some_iff.mp hother
    have := (hnodup.filter _).getElem_inj_iff.mp (hother.trans hitem.symm)
    omega
  · rintro rfl
    have hle : (ofList row items).first[(row item).castSucc] ≤
        (ofList row items).first[(row item).castSucc] + i := by omega
    rw [getElem?_items row items hle (by omega), Nat.add_sub_cancel_left,
      List.getElem?_eq_getElem hi, hitem]

end Compressed

/-! ## The slices of the engines -/

variable {n m : Nat}

/-- The residual arcs of a network are found where they belong. -/
structure Adjacency (net : Network n m) (rows : Compressed n (ResidualArc m)) : Prop where
  /-- At a node the residual arcs are found that leave it. -/
  mem_iff : ∀ (v : Fin n) (r : ResidualArc m), r ∈ rows[v].toList ↔ net.source r = v
  /-- Each of them is found once, in the order of the numbers. -/
  increasing : ∀ v : Fin n, (rows[v].toList.map (ResidualArc.numbering m)).Pairwise (· < ·)
  /-- A residual arc enters the node that its twin leaves, which has the other last bit. -/
  target_eq : ∀ r : ResidualArc m, ∃ s : ResidualArc m,
    (ResidualArc.numbering m s).val = (ResidualArc.numbering m r).val ^^^ 1 ∧
      net.target r = net.source s
  size_eq : rows.items.size = 2 * m
  /-- In the whole array each residual arc is at one place, and this is in the slice of its tail. -/
  exists_place : ∀ r : ResidualArc m, ∃ place, rows.first[(net.source r).castSucc] ≤ place ∧
    place < rows.first[(net.source r).succ] ∧ ∀ other, rows.items[other]? = some r ↔ other = place

theorem Network.adjacency_rows (net : Network n m) : Adjacency net net.rows where
  mem_iff v r := by simp [getElem_rows, ResidualArc.mem_all]
  increasing v := by
    rw [getElem_rows, List.pairwise_map]
    exact ResidualArc.pairwise_all.filter _
  target_eq r := ⟨r.reverse, r.val_numbering_reverse, (net.source_reverse r).symm⟩
  size_eq := (Compressed.size_ofList _ _).trans ResidualArc.length_all
  exists_place r := Compressed.exists_place ResidualArc.nodup_all (ResidualArc.mem_all r)

/-- Together the slices have two residual arcs for every arc. -/
theorem Network.sum_size_rows (net : Network n m) : ∑ v : Fin n, net.rows[v].size = 2 * m := by
  have hsize : ∀ v : Fin n, net.rows[v].size =
      ((ResidualArc.all m).filter (net.source · = v)).length := fun v => by
    rw [← net.getElem_rows, Array.length_toList]
  rw [Finset.sum_congr rfl fun v _ => hsize v, Compressed.sum_length_filter, ResidualArc.length_all]

/-- Whatever the problem or the network, with loops, parallel arcs or nodes without arcs, all three
engines that walk over residual arcs find at each node those that leave it. -/
theorem adjacency_exact {α : Type} [Scalar α] (p : Problem n m α) (scaledCost : Table α m)
    {n' m' : Nat} (net : Network n' m') (source target : Fin n') :
    Adjacency p.toNetwork (CapacityScaling.indexed p).rows ∧
      Adjacency p.toNetwork (CostScaling.scaled p scaledCost).rows ∧
      Adjacency net (MaxFlow.terminals net source target).rows :=
  ⟨p.toNetwork.adjacency_rows, p.toNetwork.adjacency_rows, net.adjacency_rows⟩

end NetworkFlow
