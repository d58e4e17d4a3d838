import Mathlib.Algebra.Order.BigOperators.Group.List
import NetworkFlow.Proofs.BellmanFord.Rounds
import NetworkFlow.Proofs.Lockstep

/-!
# Bellman-Ford on words

As long as what the rounds compute fits, they are the rounds on integers: same distances, same
improving arcs, same answer. It fits if the costs are small enough: a round relaxes every arc once,
so it lowers a distance by no more than all arcs cost together, whatever their signs, and no
distance is above zero.

## Main results

* `CostedArcs.Reads`: arcs whose costs are the same on integers.
* `exact_run`: the answer on words is the answer on integers, if all that it takes fits.
* `runOperations_fit`: it does if what all rounds together can cost fits.
-/

namespace NetworkFlow

/-- The answer with its distances read as integers. -/
def Relaxation.exact {n : Nat} {ι : Type} {w : Width} :
    Relaxation n ι (Word w) → Relaxation n ι Int
  | .converged dist => .converged (dist.map (·.val))
  | .negativeCycle cycle => .negativeCycle cycle

/-- The arcs with their costs read as integers. -/
def CostedArcs.exact {n : Nat} {ι : Type} {w : Width} (g : CostedArcs n ι (Word w)) :
    CostedArcs n ι Int where
  tail := g.tail
  head := g.head
  cost k := (g.cost k).val

/-- The arcs of a list are the same on integers as on words. -/
structure CostedArcs.Reads {n : Nat} {ι : Type} {w : Width} (g : CostedArcs n ι (Word w))
    (g' : CostedArcs n ι Int) (arcs : List ι) : Prop where
  tail_eq : g'.tail = g.tail
  head_eq : g'.head = g.head
  cost_eq : ∀ k ∈ arcs, g'.cost k = (g.cost k).val

theorem CostedArcs.reads_exact {n : Nat} {ι : Type} {w : Width} (g : CostedArcs n ι (Word w))
    (arcs : List ι) : g.Reads g.exact arcs :=
  ⟨rfl, rfl, fun _ _ => rfl⟩

namespace BellmanFord

open scoped ExactCosts

variable {n : Nat} {ι : Type} {w : Width}

/-- The labels with their distances read as integers. -/
def Labels.exact (s : Labels n ι (Word w)) : Labels n ι Int where
  dist := s.dist.map (·.val)
  pred := s.pred
  last := s.last

variable [inst : ExactCosts] {g : CostedArcs n ι (Word w)} {g' : CostedArcs n ι Int}
  {tolerance : Word w} {arcs : List ι} {s : Labels n ι (Word w)}

section Lockstep

theorem exact_relax (hg : g.Reads g' arcs) {k : ι} (hk : k ∈ arcs)
    (h : ∀ op ∈ relaxOperations g tolerance s k, op.Fits) :
    (relax g tolerance s k).exact = relax g' tolerance.val s.exact k := by
  have hcandidate : (s.dist[g.tail k] + g.cost k).val = s.exact.dist[g.tail k] + g'.cost k := by
    rw [CostOperation.val_add (h _ List.mem_cons_self), Labels.exact, Table.getElem_map,
      hg.cost_eq k hk]
  have hold : (s.dist[g.head k] - tolerance).val = s.exact.dist[g.head k] - tolerance.val := by
    rw [CostOperation.val_sub (h _ (by simp [relaxOperations])), Labels.exact, Table.getElem_map]
  unfold relax
  simp only [word_lt_iff, scalar_lt_iff, scalar_add_eq, scalar_sub_eq, hg.tail_eq, hg.head_eq,
    hcandidate, hold]
  split
  · unfold Labels.exact
    rw [Table.map_set, hcandidate]
    rfl
  · rfl

/-- A round whose operations fit is the round on integers. -/
theorem exact_round (hg : g.Reads g' arcs)
    (h : ∀ op ∈ roundOperations g tolerance arcs s, op.Fits) :
    (round g tolerance arcs s).exact = round g' tolerance.val arcs s.exact :=
  foldl_of_fits (fun _ _ hk => exact_relax hg hk) h

/-- Rounds whose operations fit are the rounds on integers. -/
theorem exact_rounds (hg : g.Reads g' arcs) {count : Nat}
    (h : ∀ op ∈ roundsOperations g tolerance arcs count s, op.Fits) :
    (rounds g tolerance arcs count s).exact = rounds g' tolerance.val arcs count s.exact := by
  induction count generalizing s with
  | zero => rfl
  | succ count ih =>
      rw [roundsOperations, List.forall_mem_append] at h
      have hround := exact_round hg h.1
      have hlast : (round g' tolerance.val arcs s.exact).last =
          (round g tolerance arcs s).last := by
        rw [← hround]
        rfl
      have hrest := h.2
      simp only [rounds, hlast]
      split at hrest
      · rename_i hnone
        rw [if_pos hnone, if_pos hnone, hround]
      · rename_i hsome
        rw [if_neg hsome, if_neg hsome, ih hrest, hround]

omit inst in
theorem walkBack_exact (hg : g.Reads g' arcs) (pred : Table (Option ι) n) (count : Nat)
    (v : Fin n) : walkBack g' pred count v = walkBack g pred count v := by
  induction count generalizing v with
  | zero => rfl
  | succ count ih =>
      simp only [walkBack, hg.tail_eq]
      cases pred[v] with
      | none => rfl
      | some k => exact ih (g.tail k)

omit inst in
theorem traceBack_exact (hg : g.Reads g' arcs) (pred : Table (Option ι) n) (stop : Fin n)
    (count : Nat) (v : Fin n) : traceBack g' pred stop count v = traceBack g pred stop count v := by
  induction count generalizing v with
  | zero => rfl
  | succ count ih =>
      simp only [traceBack, hg.tail_eq, ih]

/-- If all that it takes fits, the answer on words is the answer on integers. -/
theorem exact_run (hg : g.Reads g' arcs) (h : ∀ op ∈ runOperations g tolerance arcs, op.Fits) :
    (run g tolerance arcs).exact = run g' tolerance.val arcs := by
  have hstart : (start n ι (Word w)).exact = start n ι Int := by
    unfold Labels.exact start
    rw [Table.map_const, val_zero, scalar_zero_eq]
  have hrounds := exact_rounds hg h
  rw [hstart] at hrounds
  have hbehind : ∀ pred, cycleBehind g' pred = cycleBehind g pred := by
    intro pred
    funext v
    simp only [cycleBehind, walkBack_exact hg, traceBack_exact hg]
  have hcycle : (rounds g' tolerance.val arcs n (start n ι Int)).last.bind
      (cycleBehind g' (rounds g' tolerance.val arcs n (start n ι Int)).pred) =
      (rounds g tolerance arcs n (start n ι (Word w))).last.bind
        (cycleBehind g (rounds g tolerance arcs n (start n ι (Word w))).pred) := by
    rw [← hrounds, hbehind]
    rfl
  unfold run
  dsimp only
  rw [hcycle]
  cases (rounds g tolerance arcs n (start n ι (Word w))).last.bind
      (cycleBehind g (rounds g tolerance arcs n (start n ι (Word w))).pred) with
  | some cycle => rfl
  | none =>
      rw [← hrounds]
      rfl

end Lockstep

section Range

/-- What the arcs of a list cost if no two costs cancel out. -/
def expense (g : CostedArcs n ι Int) (arcs : List ι) : Int := (arcs.map fun k => |g.cost k|).sum

omit inst in
@[simp] theorem expense_nil (g : CostedArcs n ι Int) : expense g [] = 0 := rfl

omit inst in
@[simp] theorem expense_cons (g : CostedArcs n ι Int) (k : ι) (arcs : List ι) :
    expense g (k :: arcs) = |g.cost k| + expense g arcs := by
  simp [expense]

omit inst in
theorem expense_nonneg (g : CostedArcs n ι Int) (arcs : List ι) : 0 ≤ expense g arcs := by
  apply List.sum_nonneg
  intro x hx
  obtain ⟨k, -, rfl⟩ := List.mem_map.mp hx
  exact abs_nonneg _

/-- No distance is above zero, and none is below it by more than `room` leaves of `total`. -/
def Sunk (total room : Int) (s : Labels n ι (Word w)) : Prop :=
  ∀ v : Fin n, room - total ≤ s.dist[v].val ∧ s.dist[v].val ≤ 0

variable {total room : Int}

omit inst in
theorem Sunk.mono {room' : Int} (h : Sunk total room s) (hle : room' ≤ room) :
    Sunk total room' s :=
  fun v => ⟨by have := (h v).1; omega, (h v).2⟩

variable (htolerance : tolerance.val = 0) (htotal : total < w.half)

include htolerance htotal

omit inst in
theorem Sunk.relaxOperations_fit {k : ι} (h : Sunk total (|g.exact.cost k| + room) s)
    (hroom : 0 ≤ room) : ∀ op ∈ relaxOperations g tolerance s k, op.Fits := by
  have hcost := abs_le.mp (le_refl |g.exact.cost k|)
  have htail := h (g.tail k)
  have hsum : CostOperation.Fits (.add s.dist[g.tail k] (g.cost k)) := by
    show w.Fits (s.dist[g.tail k].val + g.exact.cost k)
    exact ⟨by omega, by omega⟩
  have hdifference : CostOperation.Fits (.sub s.dist[g.head k] tolerance) := by
    show w.Fits (_ - tolerance.val)
    rw [htolerance, sub_zero]
    exact Word.fits _
  simp [relaxOperations, hsum, hdifference]

/-- Relaxing an arc uses up its cost. -/
theorem Sunk.relax {k : ι} (h : Sunk total (|g.exact.cost k| + room) s) (hroom : 0 ≤ room) :
    Sunk total room (BellmanFord.relax g tolerance s k) := by
  have hexact := exact_relax (g.reads_exact [k]) List.mem_cons_self
    (h.relaxOperations_fit htolerance htotal hroom)
  have hval : ∀ v : Fin n, (BellmanFord.relax g tolerance s k).dist[v].val =
      (BellmanFord.relax g.exact 0 s.exact k).dist[v] := by
    intro v
    rw [← htolerance, ← hexact, Labels.exact, Table.getElem_map]
  have hread : ∀ v : Fin n, s.exact.dist[v] = s.dist[v].val := fun v => Table.getElem_map _ _ v
  have hcost := abs_le.mp (le_refl |g.exact.cost k|)
  have htail := h (g.exact.tail k)
  intro v
  have hv := h v
  have hhead := h (g.exact.head k)
  rw [hval, relax_eq]
  split
  · rename_i hlt
    rw [hread, hread] at hlt
    rw [dist_improve, hread, hread]
    split <;> omega
  · rw [hread]
    omega

/-- In the middle of a round, the arcs that it has still to look at are left. -/
theorem Sunk.foldl {rest : List ι} (h : Sunk total (expense g.exact rest + room) s)
    (hroom : 0 ≤ room) : Sunk total room (rest.foldl (BellmanFord.relax g tolerance) s) ∧
      ∀ op ∈ Scalar.foldOperations (BellmanFord.relax g tolerance)
        (relaxOperations g tolerance) s rest, op.Fits := by
  induction rest generalizing s with
  | nil => exact ⟨h.mono (by simp), by simp [Scalar.foldOperations]⟩
  | cons k rest ih =>
      have hrest := expense_nonneg g.exact rest
      rw [expense_cons, add_assoc] at h
      obtain ⟨hsunk, hfits⟩ := ih (h.relax htolerance htotal (by omega))
      rw [List.foldl_cons, Scalar.foldOperations, List.forall_mem_append]
      exact ⟨hsunk, h.relaxOperations_fit htolerance htotal (by omega), hfits⟩

/-- What the rounds compute fits. -/
theorem Sunk.roundsOperations_fit {count : Nat}
    (h : Sunk total (count * expense g.exact arcs) s) :
    ∀ op ∈ roundsOperations g tolerance arcs count s, op.Fits := by
  induction count generalizing s with
  | zero => simp [roundsOperations]
  | succ count ih =>
      have hrest : 0 ≤ (count : Int) * expense g.exact arcs :=
        mul_nonneg (by omega) (expense_nonneg g.exact arcs)
      have hsplit : ((count + 1 : Nat) : Int) * expense g.exact arcs =
          expense g.exact arcs + count * expense g.exact arcs := by
        push_cast
        ring
      rw [hsplit] at h
      have hcleared : Sunk total (expense g.exact arcs + count * expense g.exact arcs)
          { s with last := none } := h
      obtain ⟨hsunk, hfits⟩ := hcleared.foldl htolerance htotal hrest
      rw [roundsOperations, List.forall_mem_append]
      refine ⟨hfits, ?_⟩
      split
      · simp
      · exact ih hsunk

omit htotal in
/-- All that the answer takes fits if what all rounds together can cost does. -/
theorem runOperations_fit (hfits : n * expense g.exact arcs < w.half) :
    ∀ op ∈ runOperations g tolerance arcs, op.Fits := by
  refine Sunk.roundsOperations_fit htolerance hfits fun v => ?_
  simp [start, val_zero]

end Range

end BellmanFord

end NetworkFlow
