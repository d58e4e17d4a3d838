import Mathlib.Order.Bounds.Basic
import NetworkFlow.Proofs.MaxFlow.Maximal

/-!
# Maximum flows and minimum cuts

A cut is a set of nodes that holds the source and not the target. What a flow takes out
of the source it takes out of every cut, for all other nodes are balanced, and no more
leaves a cut than the arcs that lead out of it can carry. If no residual arc with room
leaves the cut, these arcs are full and those that lead into it are empty, so exactly
as much leaves it.

## Main results

* `sum_outflow_le_cutCapacity`, `Closed.sum_outflow_eq`: what leaves a cut.
* `Maximal.isLeast_cutCapacity`: a maximal flow carries what the smallest cut can.
* `run_fills_cut`: push and relabel end, and the flow they return is of this kind.
-/

namespace NetworkFlow

open Finset

variable {n m : Nat}

namespace Network

variable (net : Network n m)

/-- What the arcs that lead out of a set of nodes can carry; a negative capacity counts as zero. -/
def cutCapacity (nodes : Finset (Fin n)) : Int :=
  ∑ a : Fin m, if net.tail[a] ∈ nodes ∧ net.head[a] ∉ nodes then max net.cap[a] 0 else 0

variable {net} {flow : Table Int m} {nodes : Finset (Fin n)}

/-- No flow takes more out of a set of nodes than the arcs that lead out of it can carry. -/
theorem Within.sum_outflow_le_cutCapacity (h : net.Within flow) (nodes : Finset (Fin n)) :
    ∑ v ∈ nodes, net.outflow flow v ≤ net.cutCapacity nodes := by
  rw [net.sum_outflow_mem, cutCapacity]
  apply sum_le_sum
  intro a _
  obtain ⟨hlo, hhi⟩ := h a
  -- an arc matters only if it crosses the border
  by_cases htail : net.tail[a] ∈ nodes <;> by_cases hhead : net.head[a] ∈ nodes
  · simp [htail, hhead]
  · simp only [htail, hhead, if_true, if_false, not_false_eq_true, and_self]
    omega
  · simp only [htail, hhead, if_true, if_false, not_true, and_self]
    omega
  · simp [htail, hhead]

/-- If no residual arc with room leaves a set of nodes, a flow takes as much out of it as the arcs
that lead out of it can carry. -/
theorem Closed.sum_outflow_eq (hclosed : net.Closed flow nodes) (h : net.Within flow) :
    ∑ v ∈ nodes, net.outflow flow v = net.cutCapacity nodes := by
  rw [net.sum_outflow_mem, cutCapacity]
  apply sum_congr rfl
  intro a _
  obtain ⟨hlo, hhi⟩ := h a
  by_cases htail : net.tail[a] ∈ nodes <;> by_cases hhead : net.head[a] ∈ nodes
  · simp [htail, hhead]
  · have hfull : ¬ 0 < net.room flow ⟨a, false⟩ := fun hroom => hhead (hclosed _ hroom htail)
    rw [room_forward] at hfull
    simp only [htail, hhead, if_true, if_false, not_false_eq_true, and_self]
    omega
  · have hempty : ¬ 0 < net.room flow ⟨a, true⟩ := fun hroom => htail (hclosed _ hroom hhead)
    rw [room_backward] at hempty
    simp only [htail, hhead, if_true, if_false, not_true, and_self]
    omega
  · simp [htail, hhead]

end Network

namespace MaxFlow

variable {net : Network n m} {source target : Fin n} {flow : Table Int m}

/-- A maximal flow takes out of the source what the smallest cut can carry. -/
theorem Maximal.isLeast_cutCapacity (h : Maximal net source target flow) :
    IsLeast {x | ∃ nodes : Finset (Fin n), source ∈ nodes ∧ target ∉ nodes ∧
      net.cutCapacity nodes = x} (net.outflow flow source) := by
  obtain ⟨nodes, hsource, htarget, hclosed⟩ := h.cut
  refine ⟨⟨nodes, hsource, htarget, ?_⟩, ?_⟩
  · rw [← hclosed.sum_outflow_eq h.within, sum_outflow_cut h.balanced hsource htarget]
  · rintro x ⟨other, hsource', htarget', rfl⟩
    rw [← sum_outflow_cut h.balanced hsource' htarget']
    exact h.within.sum_outflow_le_cutCapacity other

theorem cutCapacity_clip (net : Network n m) (nodes : Finset (Fin n)) :
    (clip net).cutCapacity nodes = net.cutCapacity nodes := by
  unfold Network.cutCapacity clip
  simp

/-- For any number of nodes and any arcs between them, whatever their capacities, the search for a
maximum flow between two different nodes ends. A flow that it returns stays within the
capacities, of which negative ones count as zero, is balanced at all other nodes, and carries
from the source to the target what the smallest cut between them can. -/
theorem run_fills_cut (net : Network n m) (hne : source ≠ target) :
    (∃ o fuel₀, ∀ fuel ≥ fuel₀, run fuel net source target = .ok o) ∧
      ∀ fuel flow, run fuel net source target = .ok (.ok flow) →
        (∀ a : Fin m, 0 ≤ flow[a] ∧ flow[a] ≤ max net.cap[a] 0) ∧
          (∀ v, v ≠ source → v ≠ target → net.outflow flow v = 0) ∧
          net.outflow flow target = -net.outflow flow source ∧
          IsLeast {x | ∃ nodes : Finset (Fin n), source ∈ nodes ∧ target ∉ nodes ∧
            net.cutCapacity nodes = x} (net.outflow flow source) := by
  constructor
  · obtain ⟨fuel₀, o, ho⟩ := exists_run net hne
    exact ⟨o, fuel₀, fun fuel hfuel => (run_mono hfuel).eq_ok ho⟩
  · intro fuel flow h
    have hmaximal := run_ok hne h
    refine ⟨fun a => ?_, hmaximal.balanced, outflow_target_eq hne hmaximal.balanced, ?_⟩
    · have hwithin := hmaximal.within a
      simpa [clip] using hwithin
    · have hleast := hmaximal.isLeast_cutCapacity
      simp only [cutCapacity_clip] at hleast
      exact hleast

/-- An arc that can carry ten units leads to one that can carry one. -/
def narrowing : Network 3 2 where
  tail := .ofFn Fin.castSucc
  head := .ofFn Fin.succ
  cap := ⟨#v[10, 1]⟩

/-- Of the ten units that fill the first arc, nine come back to the source. -/
theorem run_fills_cut_narrowing :
    (0 : Fin 3) ≠ 2 ∧ run 20 narrowing 0 2 = .ok (.ok ⟨#v[1, 1]⟩) ∧
      IsLeast {x | ∃ nodes : Finset (Fin 3), 0 ∈ nodes ∧ 2 ∉ nodes ∧
        narrowing.cutCapacity nodes = x} 1 := by
  have hne : (0 : Fin 3) ≠ 2 := by decide
  have hrun : run 20 narrowing 0 2 = .ok (.ok ⟨#v[1, 1]⟩) := by with_unfolding_all rfl
  exact ⟨hne, hrun, ((run_fills_cut narrowing hne).2 20 _ hrun).2.2.2⟩

end MaxFlow

end NetworkFlow
