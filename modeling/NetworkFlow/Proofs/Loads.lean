import NetworkFlow.Proofs.MaxFlow.Range

/-!
# What engines add and subtract is in range

The load of a node is its supply and the capacities of its arcs. A flow within the
capacities leaves no more at the node than that, so what an engine keeps as the excess of the
node is never beyond its load. A load is a quarter of the largest amount at most; so is a
capacity, which counts at both ends of its arc. Moving an amount along a residual arc adds or
subtracts two or three such numbers.

## Main results

* `Problem.abs_held_le`: what a flow leaves at a node is within the load of the node.
* `Moves.fits`: moving what an arc has room for leaves no range.
-/

namespace NetworkFlow

variable {n m : Nat}

/-- What a flow within the capacities leaves of the supply of a node is within the load of the
node. -/
theorem Problem.abs_held_le {α : Type} {p : Problem n m α} {flow : Table Int m}
    (h : p.Within flow) {v : Fin n} {held : Int}
    (hheld : held + p.outflow flow v = p.supply[v]) : |held| ≤ p.load v := by
  have hload : p.load v = |p.supply[v]| + p.capacityAt v := rfl
  have houtflow := h.abs_outflow_le v
  have hsub := abs_sub p.supply[v] (p.outflow flow v)
  rw [show held = p.supply[v] - p.outflow flow v by omega, hload]
  omega

namespace Network

variable {net : Network n m} {flow : Table Int m} {r : ResidualArc m} {x : Int}

/-- The room of a residual arc is part of its capacity. -/
theorem Within.room_le (h : net.Within flow) (r : ResidualArc m) :
    net.room flow r ≤ net.cap[r.arc] := by
  have hadd := net.room_add_reverse flow r
  have hreverse := h.room_nonneg r.reverse
  omega

theorem Within.fits_room (h : net.Within flow) (hcap : net.cap[r.arc] ≤ Amount.largest) :
    Width.bits64.Fits (net.room flow r) := by
  have hnonneg := h.room_nonneg r
  have hle := h.room_le r
  apply MaxFlow.fits_of_abs_le
  rw [abs_of_nonneg hnonneg]
  omega

/-- The flow of an arc that can be counted can be counted. -/
theorem Within.fits_flow (h : net.Within flow) {a : Fin m} (hcap : net.cap[a] ≤ Amount.largest) :
    Width.bits64.Fits flow[a] := by
  obtain ⟨hlo, hhi⟩ := h a
  apply MaxFlow.fits_of_abs_le
  rw [abs_of_nonneg hlo]
  omega

/-- The capacity of an arc counts at both of its ends. -/
theorem cap_le_capacityAt (hcap : ∀ a : Fin m, 0 ≤ net.cap[a]) {a : Fin m} {v : Fin n}
    (h : net.tail[a] = v ∨ net.head[a] = v) : net.cap[a] ≤ net.capacityAt v := by
  have hterm : ∀ b : Fin m, 0 ≤ (if net.tail[b] = v then net.cap[b] else 0) +
      if net.head[b] = v then net.cap[b] else 0 := by
    intro b
    have := hcap b
    split_ifs <;> omega
  refine le_trans ?_ (Finset.single_le_sum (fun b _ => hterm b) (Finset.mem_univ a))
  have := hcap a
  rcases h with h | h <;> simp only [h, if_true] <;> split_ifs <;> omega

/-- What is computed when an amount is moved along a residual arc: the new flow of the arc, what
stays at the node it leaves and what the node it enters has then. -/
inductive Moves (net : Network n m) (flow : Table Int m) (excess : Table Int n)
    (r : ResidualArc m) (amount : Int) : Int → Prop where
  | flow : Moves net flow excess r amount (sendAlong flow r amount)[r.arc]
  | left : Moves net flow excess r amount (excess[net.source r] - amount)
  | arrived : Moves net flow excess r amount
      ((excess.set (net.source r) (excess[net.source r] - amount))[net.target r] + amount)

/-- Moving what a residual arc has room for leaves no range, if capacities and excesses do not
exceed the limit of a load. -/
theorem Moves.fits {excess : Table Int n} {amount : Int} (hwithin : net.Within flow)
    (hcap : net.cap[r.arc] ≤ Amount.loadLimit) (hexcess : ∀ v : Fin n, |excess[v]| ≤ Amount.loadLimit)
    (hpos : 0 ≤ amount) (hroom : amount ≤ net.room flow r)
    (h : net.Moves flow excess r amount x) : Width.bits64.Fits x := by
  have hamount : amount ≤ Amount.loadLimit := hroom.trans ((hwithin.room_le r).trans hcap)
  have hlimit : 3 * Amount.loadLimit ≤ Amount.largest := by decide
  cases h with
  | flow =>
      refine (hwithin.sendAlong hpos hroom).fits_flow ?_
      omega
  | left =>
      have hsource := abs_le.mp (hexcess (net.source r))
      apply MaxFlow.fits_of_abs_le
      rw [abs_le]
      omega
  | arrived =>
      have hsource := abs_le.mp (hexcess (net.source r))
      have htarget := abs_le.mp (hexcess (net.target r))
      apply MaxFlow.fits_of_abs_le
      rw [Table.getElem_set, abs_le]
      split <;> omega

end Network

end NetworkFlow
