import Mathlib.Data.Prod.Lex
import Mathlib.Order.Lattice.Nat
import NetworkFlow.Proofs.Flow

/-!
# Discharging nodes

Two engines discharge nodes: they try the residual arcs of a node one after the
other, push along those that they may, and move the node when it has tried all of
them. A node remembers its place in its row, and the arcs before that place are
known to be of no use.

Every step lowers what is left to be done (`left`): it moves a node, or leaves the
nodes where they are and lowers the flow, or leaves both and takes up the next arc.

## Main results

* `mem_row`, `mem_take_succ`: the arcs of a row and those tried.
* `left_lt_of_height`, `left_lt_of_slack`, `left_lt_of_untried`: the three ways of
  making progress.
-/

namespace NetworkFlow

open Finset

variable {n m : Nat}

namespace Network

variable {net : Network n m} {rows : Compressed n (ResidualArc m)} {r : ResidualArc m} {u : Fin n}
  {place : Nat}

theorem mem_row (hrows : rows = net.rows) : r ∈ rows[u].toList ↔ net.source r = u := by
  rw [hrows, net.getElem_rows]
  simp [ResidualArc.mem_all]

/-- The arc at the place of a node leaves the node. -/
theorem source_of_place (hrows : rows = net.rows) (h : rows[u][place]? = some r) :
    net.source r = u := by
  obtain ⟨hlt, hget⟩ := Array.getElem?_eq_some_iff.mp h
  rw [← mem_row hrows, ← hget]
  simp

/-- A node whose place is behind its row has tried all its arcs. -/
theorem mem_take_of_none (hrows : rows = net.rows) (h : rows[u][place]? = none)
    (hr : net.source r = u) : r ∈ rows[u].toList.take place := by
  rw [List.take_of_length_le (by simpa using Array.getElem?_eq_none_iff.mp h)]
  exact (mem_row hrows).mpr hr

/-- Taking up the next arc adds one arc to those tried. -/
theorem mem_take_succ {r' : ResidualArc m} (h : rows[u][place]? = some r)
    (hr' : r' ∈ rows[u].toList.take (place + 1)) : r' ∈ rows[u].toList.take place ∨ r' = r := by
  rw [List.take_add_one, List.mem_append] at hr'
  apply hr'.imp_right
  intro hmem
  rw [Array.getElem?_toList, h] at hmem
  simpa using hmem

end Network

/-- A sum falls if one of its terms does and the others stay. -/
theorem sum_lt_of_lt {f g : Fin n → Nat} {w : Fin n} (hw : g w < f w)
    (hsame : ∀ v, v ≠ w → g v = f v) : ∑ v, g v < ∑ v, f v := by
  refine sum_lt_sum (fun v _ => ?_) ⟨w, mem_univ w, hw⟩
  by_cases hv : v = w
  · rw [hv]
    exact hw.le
  · rw [hsame v hv]

/-- What is left to be done: how far the nodes can move, how far the flow can be lowered, and the
arcs that are still to be tried. -/
def left (height : Fin n → Nat) (slack : Nat) (untried : Fin n → Nat) : Nat ×ₗ Nat ×ₗ Nat :=
  toLex (∑ v, height v, toLex (slack, ∑ v, untried v))

section Left

variable {height height' : Fin n → Nat} {slack slack' : Nat} {untried untried' : Fin n → Nat}
  {w : Fin n}

theorem left_lt_of_height (hw : height' w < height w)
    (hsame : ∀ v, v ≠ w → height' v = height v) :
    left height' slack' untried' < left height slack untried :=
  Prod.Lex.toLex_lt_toLex.mpr (Or.inl (sum_lt_of_lt hw hsame))

theorem left_lt_of_slack (hslack : slack' < slack) :
    left height slack' untried' < left height slack untried :=
  Prod.Lex.toLex_lt_toLex.mpr (Or.inr ⟨rfl, Prod.Lex.toLex_lt_toLex.mpr (Or.inl hslack)⟩)

theorem left_lt_of_untried (hw : untried' w < untried w)
    (hsame : ∀ v, v ≠ w → untried' v = untried v) :
    left height slack untried' < left height slack untried := by
  have hsum := sum_lt_of_lt hw hsame
  exact Prod.Lex.toLex_lt_toLex.mpr
    (Or.inr ⟨rfl, Prod.Lex.toLex_lt_toLex.mpr (Or.inr ⟨rfl, hsum⟩)⟩)

end Left

end NetworkFlow
