import Mathlib.Order.Bounds.Basic
import NetworkFlow.Proofs.BellmanFord.Rounds

/-!
# What Bellman-Ford decides

A walk may begin at any node, at no cost. The costs of the walks that end at a node have
a least one unless a closed walk has a negative cost; then the distances that Bellman-Ford
returns are these least costs, and otherwise it returns a cycle of negative cost.

Two ways out of the search for the cycle return distances although the last round has
relaxed an arc: a node on the way back that was never improved, and a way back that does
not return to where it begins. Neither is ever taken.

## Main results

* `isLeast_of_converged`: distances are least costs.
* `exists_converged_iff`, `exists_negativeCycle_iff`: which of the two is returned.
* `run_decides`: all of this, and that a cycle is found behind every node that the last
  round has improved.
-/

namespace NetworkFlow.BellmanFord

open scoped ExactCosts

variable {n : Nat} {ι : Type} {g : CostedArcs n ι Int} {arcs : List ι}

/-- What the walks cost that end at a node. -/
def walkCosts (g : CostedArcs n ι Int) (arcs : List ι) (v : Fin n) : Set Int :=
  {x | ∃ u walk, IsWalk g arcs u v walk ∧ costSum g walk = x}

/-- Without its distinct nodes, a cycle of negative cost is a closed walk of negative cost. -/
theorem NegativeCycle.exists_isWalk {cycle : List ι} (h : NegativeCycle g arcs cycle) :
    ∃ u walk, IsWalk g arcs u u walk ∧ costSum g walk < 0 := by
  obtain ⟨u, hwalk⟩ := h.closed
  exact ⟨u, cycle, hwalk, h.negative⟩

variable [ExactCosts]

/-- The search for a cycle behind a node that the last round has improved comes to an end: no node
on the way back was never improved, and the way back returns in time. -/
theorem exists_back {v : Fin n} (hlast : (rounds g 0 arcs n (start n ι Int)).last = some v) :
    ∃ stop back, walkBack g (rounds g 0 arcs n (start n ι Int)).pred n v = some stop ∧
      traceBack g (rounds g 0 arcs n (start n ι Int)).pred stop (n + 1) stop = some back := by
  have hafter := (rounds_start g arcs).2.2 (by simp [hlast])
  obtain ⟨cycle, hcycle, -⟩ := exists_cycleBehind hafter hlast
  obtain ⟨stop, hstop, hcycle⟩ := Option.bind_eq_some_iff.mp hcycle
  obtain ⟨back, hback, -⟩ := Option.bind_eq_some_iff.mp hcycle
  exact ⟨stop, back, hstop, hback⟩

/-- A walk costs at least the difference of the distances of its ends. -/
theorem IsWalk.dist_le {dist : Table Int n} (h : run g 0 arcs = .converged dist) {u v : Fin n}
    {walk : List ι} (hwalk : IsWalk g arcs u v walk) : dist[v] ≤ dist[u] + costSum g walk := by
  let distance : Fin n → Int := fun v => dist[v]
  have hslack : ∀ k ∈ arcs, distance (g.head k) ≤ distance (g.tail k) + g.cost k :=
    (run_converged h).1
  exact hwalk.le_costSum hslack

/-- The distance of a node is the least of zero and the costs of the walks that end there. -/
theorem isLeast_of_converged {dist : Table Int n} (h : run g 0 arcs = .converged dist)
    (v : Fin n) : IsLeast (insert 0 (walkCosts g arcs v)) dist[v] := by
  obtain ⟨-, hattained⟩ := run_converged h
  refine ⟨(hattained v).2, ?_⟩
  rintro x (rfl | ⟨u, walk, hwalk, rfl⟩)
  · exact (hattained v).1
  · have hle := hwalk.dist_le h
    have hu := (hattained u).1
    omega

/-- If distances are returned, no closed walk has a negative cost. -/
theorem costSum_nonneg_of_converged {dist : Table Int n} (h : run g 0 arcs = .converged dist)
    {u : Fin n} {walk : List ι} (hwalk : IsWalk g arcs u u walk) : 0 ≤ costSum g walk := by
  have hle := hwalk.dist_le h
  omega

theorem exists_converged_iff : (∃ dist, run g 0 arcs = .converged dist) ↔
    ∀ u walk, IsWalk g arcs u u walk → 0 ≤ costSum g walk := by
  constructor
  · rintro ⟨dist, h⟩ u walk hwalk
    exact costSum_nonneg_of_converged h hwalk
  · intro h
    cases hrun : run g 0 arcs with
    | converged dist => exact ⟨dist, rfl⟩
    | negativeCycle cycle =>
        obtain ⟨u, walk, hwalk, hnegative⟩ := (run_negativeCycle hrun).exists_isWalk
        exact absurd (h u walk hwalk) (by omega)

theorem exists_negativeCycle_iff : (∃ cycle, run g 0 arcs = .negativeCycle cycle) ↔
    ∃ cycle, NegativeCycle g arcs cycle := by
  constructor
  · rintro ⟨cycle, h⟩
    exact ⟨cycle, run_negativeCycle h⟩
  · rintro ⟨cycle, h⟩
    cases hrun : run g 0 arcs with
    | negativeCycle cycle' => exact ⟨cycle', rfl⟩
    | converged dist =>
        obtain ⟨u, walk, hwalk, hnegative⟩ := h.exists_isWalk
        have := costSum_nonneg_of_converged hrun hwalk
        omega

/-- For any number of nodes and any arcs between them, without a tolerance:

* distances are returned exactly if no closed walk has a negative cost, and a cycle exactly if a
  cycle through distinct nodes has one;
* a distance is the least of zero and the costs of the walks that end at the node, so no arc
  undercuts it;
* a cycle that is returned has a negative cost, follows its arcs and passes no node twice;
* behind a node that the last round has improved, a cycle is always found. -/
theorem run_decides (g : CostedArcs n ι Int) (arcs : List ι) :
    ((∃ dist, run g 0 arcs = .converged dist) ↔
        ∀ u walk, IsWalk g arcs u u walk → 0 ≤ costSum g walk) ∧
      ((∃ cycle, run g 0 arcs = .negativeCycle cycle) ↔ ∃ cycle, NegativeCycle g arcs cycle) ∧
      (∀ dist, run g 0 arcs = .converged dist →
        (∀ v : Fin n, IsLeast (insert 0 (walkCosts g arcs v)) dist[v]) ∧
          ∀ k ∈ arcs, dist[g.head k] ≤ dist[g.tail k] + g.cost k) ∧
      (∀ cycle, run g 0 arcs = .negativeCycle cycle → NegativeCycle g arcs cycle) ∧
      ∀ v, (rounds g 0 arcs n (start n ι Int)).last = some v →
        ∃ stop back, walkBack g (rounds g 0 arcs n (start n ι Int)).pred n v = some stop ∧
          traceBack g (rounds g 0 arcs n (start n ι Int)).pred stop (n + 1) stop = some back :=
  ⟨exists_converged_iff, exists_negativeCycle_iff,
    fun _ h => ⟨isLeast_of_converged h, (run_converged h).1⟩, fun _ => run_negativeCycle,
    fun _ => exists_back⟩

end NetworkFlow.BellmanFord
