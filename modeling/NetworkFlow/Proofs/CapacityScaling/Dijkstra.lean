import Mathlib.Algebra.BigOperators.Fin
import Mathlib.Order.Defs.Unbundled
import NetworkFlow.CapacityScaling.Dijkstra
import NetworkFlow.Proofs.CapacityScaling.Search

/-!
# The search with a heap finds the nearest deficit

Buffers that were used before are as good as new: every mark that a run leaves is on a node that the
run has touched (`Clean`), and the next run begins by clearing these.

The search with a heap is compared with the one that looks at all nodes (`Follows`). Both know the
same distances of the nodes reached. Every node that is reached and not done waits in the heap at
its distance, and if there are other entries of it, they are not nearer. So an entry that is the
greatest one of the heap either belongs to a node that is done, or is the nearest node itself, at
its distance.

This needs an order of the costs in which two costs of which none is less are equal. That a run ends
does not need it: what waits in the heap and the arcs of the nodes that are not done become fewer.

## Main results

* `Used.clean`: whatever earlier runs were about, the next one begins with no mark.
* `run_ne_outOfFuel`: a run ends, whatever the buffers.
* `run_spec`: what holds of the search over all nodes holds of the search with a heap.
* `run_eq`: the way read off the buffers is the one that `nearestDeficit` finds.
-/

namespace NetworkFlow.CapacityScaling

variable {n m : Nat} {α : Type} [Scalar α]

/-! ## The heap -/

section Heap

/-- An entry is at least as near as another one, and has no larger number if it is as near. -/
def Entry.Precedes (x y : Entry n α) : Prop :=
  x.dist < y.dist ∨ (x.dist = y.dist ∧ x.node ≤ y.node)

variable {heap rest : List (Entry n α)} {e x y z : Entry n α}

theorem perm_of_pop (h : pop heap = some (e, rest)) : heap.Perm (e :: rest) := by
  induction heap generalizing e rest with
  | nil => cases h
  | cons x heap ih =>
      rw [pop] at h
      cases hpop : pop heap with
      | none =>
          rw [hpop] at h
          cases h
          cases heap with
          | nil => rfl
          | cons y heap =>
              rw [pop] at hpop
              split at hpop
              · cases hpop
              · split at hpop <;> cases hpop
      | some result =>
          obtain ⟨top, others⟩ := result
          have hperm := ih hpop
          simp only [hpop] at h
          split at h
          · cases h
            exact (hperm.cons x).trans (.swap e x others)
          · cases h
            exact hperm.cons x

theorem eq_nil_of_pop (h : pop heap = none) : heap = [] := by
  cases heap with
  | nil => rfl
  | cons x heap =>
      rw [pop] at h
      split at h
      · cases h
      · split at h <;> cases h

variable [IsStrictTotalOrder α (· < ·)]

theorem Entry.Precedes.trans (h : x.Precedes y) (h' : y.Precedes z) : x.Precedes z := by
  rcases h with h | ⟨heq, hle⟩
  · rcases h' with h' | ⟨heq', -⟩
    · exact Or.inl (IsTrans.trans _ _ _ h h')
    · exact Or.inl (heq' ▸ h)
  · rcases h' with h' | ⟨heq', hle'⟩
    · exact Or.inl (heq.symm ▸ h')
    · exact Or.inr ⟨heq.trans heq', hle.trans hle'⟩

/-- Of two entries the greater one precedes. -/
theorem Entry.precedes_of_compare :
    (x.compare y = .lt → y.Precedes x) ∧ (x.compare y ≠ .lt → x.Precedes y) := by
  unfold Entry.compare Entry.Precedes
  by_cases hlt : y.dist < x.dist
  · simp [hlt]
  · by_cases hgt : x.dist < y.dist
    · simp [hlt, hgt]
    · have heq : x.dist = y.dist := Std.Trichotomous.trichotomous _ _ hgt hlt
      simp only [if_neg hlt, if_neg hgt]
      show (Ord.compare y.node x.node = .lt → _) ∧ (¬ Ord.compare y.node x.node = .lt → _)
      rw [compare_lt_iff_lt, not_lt]
      exact ⟨fun h => Or.inr ⟨heq.symm, h.le⟩, fun h => Or.inr ⟨heq, h⟩⟩

/-- What is taken out of the heap comes before all the rest. -/
theorem precedes_of_pop (h : pop heap = some (e, rest)) : ∀ x ∈ heap, e.Precedes x := by
  induction heap generalizing e rest with
  | nil => cases h
  | cons y heap ih =>
      have hself : y.Precedes y := Or.inr ⟨rfl, le_refl _⟩
      rw [pop] at h
      cases hpop : pop heap with
      | none =>
          rw [hpop] at h
          cases h
          rw [eq_nil_of_pop hpop]
          simpa using hself
      | some result =>
          obtain ⟨top, others⟩ := result
          have htop := ih hpop
          simp only [hpop] at h
          split at h
          · rename_i hless
            cases h
            exact List.forall_mem_cons.mpr ⟨Entry.precedes_of_compare.1 hless, htop⟩
          · rename_i hnot
            cases h
            have hbefore := Entry.precedes_of_compare.2 hnot
            exact List.forall_mem_cons.mpr ⟨hself, fun x hx => hbefore.trans (htop x hx)⟩

end Heap

namespace Dijkstra

variable {p : Indexed n m α} {st : State n m α} {s u : Fin n} {delta : Int} {d : α}
  {x x' : Dijkstra n m α} {t : Option (Fin n)} {fuel : Nat}

/-! ## Buffers that were used before -/

/-- Every node that is marked, or waits, has been touched since the marks were cleared. -/
structure Clean (x : Dijkstra n m α) : Prop where
  reached : ∀ v : Fin n, x.reached[v] = true → v ∈ x.touched
  done : ∀ v : Fin n, x.done[v] = true → v ∈ x.touched
  heap : ∀ e ∈ x.heap, e.node ∈ x.touched

/-- The buffers that runs leave, whatever problems, states, starts and deltas they were for. -/
inductive Used : Dijkstra n m α → Prop where
  | new : Used (.new n m α)
  | run {p : Indexed n m α} {st : State n m α} {s : Fin n} {delta : Int} {fuel : Nat}
      {x x' : Dijkstra n m α} {t : Option (Fin n)} (h : Used x)
      (hrun : x.run p st s delta fuel = .ok (x', t)) : Used x'

omit [Scalar α] in
theorem getElem_unmark (marks : Table Bool n) (nodes : List (Fin n)) (v : Fin n) :
    (unmark marks nodes)[v] = (marks[v] && decide (v ∉ nodes)) := by
  unfold unmark
  induction nodes generalizing marks with
  | nil => simp
  | cons w nodes ih =>
      rw [List.foldl_cons, ih, Table.getElem_set]
      by_cases hv : w = v
      · simp [hv]
      · simp [hv, Ne.symm hv]

omit [Scalar α] in
/-- A run begins without marks. -/
theorem Clean.unmarked (h : x.Clean) (v : Fin n) :
    (unmark x.reached x.touched)[v] = false ∧ (unmark x.done x.touched)[v] = false := by
  rw [getElem_unmark, getElem_unmark]
  constructor
  · cases hv : x.reached[v] with
    | false => rfl
    | true => simpa using h.reached v hv
  · cases hv : x.done[v] with
    | false => rfl
    | true => simpa using h.done v hv

theorem Clean.begin (h : x.Clean) (s : Fin n) : (x.begin s).Clean where
  reached v hv := by
    simp only [Dijkstra.begin, Table.getElem_set, (h.unmarked v).1] at hv
    split at hv
    · rename_i heq
      exact List.mem_singleton.mpr heq.symm
    · cases hv
  done v hv := by
    simp only [Dijkstra.begin, (h.unmarked v).2] at hv
    cases hv
  heap e he := by
    obtain rfl := List.mem_singleton.mp he
    exact List.mem_singleton_self s

/-- What looking along a residual arc does to the buffers. -/
theorem relax_cases (p : Indexed n m α) (st : State n m α) (delta : Int) (d : α)
    (x : Dijkstra n m α) (r : ResidualArc m) :
    (relax p st delta d x r = x ∧ (delta ≤ p.room st.flow r → x.done[p.target r] = false →
        x.reached[p.target r] = true ∧ ¬ d + length p st r < x.dist[p.target r])) ∨
      (delta ≤ p.room st.flow r ∧ x.done[p.target r] = false ∧
        (x.reached[p.target r] = true → d + length p st r < x.dist[p.target r]) ∧
        relax p st delta d x r = { x with
          dist := x.dist.set (p.target r) (d + length p st r)
          pred := x.pred.set (p.target r) (some r)
          reached := x.reached.set (p.target r) true
          touched := if x.reached[p.target r] then x.touched else p.target r :: x.touched
          heap := ⟨d + length p st r, p.target r⟩ :: x.heap }) := by
  unfold relax
  simp only
  split
  · rename_i hskip
    refine Or.inl ⟨rfl, fun hroom hdone => ?_⟩
    rcases hskip with hskip | hskip
    · omega
    · simp [hdone] at hskip
  · rename_i hlook
    rw [not_or, not_lt, Bool.not_eq_true] at hlook
    split
    · rename_i hbetter
      exact Or.inr ⟨hlook.1, hlook.2, fun hreached => hbetter.resolve_left (not_not.mpr hreached),
        rfl⟩
    · rename_i hworse
      rw [not_or, not_not] at hworse
      exact Or.inl ⟨rfl, fun _ _ => hworse⟩

theorem Clean.relax (h : x.Clean) (r : ResidualArc m) : (relax p st delta d x r).Clean := by
  rcases relax_cases p st delta d x r with ⟨heq, -⟩ | ⟨-, -, -, heq⟩
  · rwa [heq]
  · have htouched : ∀ v : Fin n, v ∈ x.touched ∨ v = p.target r →
        v ∈ (Dijkstra.relax p st delta d x r).touched := by
      rw [heq]
      rintro v hv
      cases hreached : x.reached[p.target r] with
      | true => exact hv.elim (by simp) fun hv => by simpa [hv] using h.reached _ hreached
      | false => simpa using hv.symm
    constructor
    · intro v hv
      apply htouched
      by_cases heq' : v = p.target r
      · exact Or.inr heq'
      · rw [heq, Table.getElem_set_of_ne _ _ (Ne.symm heq')] at hv
        exact Or.inl (h.reached v hv)
    · intro v hv
      rw [heq] at hv
      exact htouched v (Or.inl (h.done v hv))
    · intro e he
      apply htouched
      rw [heq] at he
      rcases List.mem_cons.mp he with rfl | he
      · exact Or.inr rfl
      · exact Or.inl (h.heap e he)

theorem Clean.foldl_relax (h : x.Clean) (rs : List (ResidualArc m)) :
    (rs.foldl (Dijkstra.relax p st delta d) x).Clean := by
  induction rs generalizing x with
  | nil => exact h
  | cons r rs ih => exact ih (h.relax r)

omit [Scalar α] in
theorem Clean.finish (h : x.Clean) (hu : u ∈ x.touched) : (x.finish u).Clean where
  reached := h.reached
  done v hv := by
    simp only [Dijkstra.finish, Table.getElem_set] at hv
    split at hv
    · rename_i heq
      exact heq ▸ hu
    · exact h.done v hv
  heap := h.heap

/-- What a step does: nothing is left, a node is skipped, or a node is done now. -/
theorem popStep_cases (p : Indexed n m α) (st : State n m α) (s : Fin n) (delta : Int)
    (x : Dijkstra n m α) :
    (pop x.heap = none ∧ x.popStep p st s delta = .done (x, none)) ∨
      ∃ e rest, pop x.heap = some (e, rest) ∧
        ((x.done[e.node] = true ∧ x.popStep p st s delta = .next { x with heap := rest }) ∨
        (x.done[e.node] = false ∧ e.node ≠ s ∧ st.excess[e.node] ≤ -delta ∧
          x.popStep p st s delta = .done ({ x with heap := rest }.finish e.node, some e.node)) ∨
        (x.done[e.node] = false ∧ (e.node ≠ s → -delta < st.excess[e.node]) ∧
          x.popStep p st s delta = .next (p.rows[e.node].toList.foldl
            (Dijkstra.relax p st delta e.dist) ({ x with heap := rest }.finish e.node)))) := by
  unfold popStep
  cases hpop : pop x.heap with
  | none => exact Or.inl ⟨rfl, rfl⟩
  | some result =>
      obtain ⟨e, rest⟩ := result
      refine Or.inr ⟨e, rest, rfl, ?_⟩
      simp only [Array.foldl_toList]
      cases hdone : x.done[e.node] with
      | true => exact Or.inl ⟨rfl, rfl⟩
      | false =>
          by_cases hfound : e.node ≠ s ∧ st.excess[e.node] ≤ -delta
          · exact Or.inr (Or.inl ⟨rfl, hfound.1, hfound.2, by simp [hfound]⟩)
          · refine Or.inr (Or.inr ⟨rfl, fun hne => ?_, by simp [hfound]⟩)
            exact not_le.mp fun hle => hfound ⟨hne, hle⟩

/-- A run goes on when a node is skipped, or when it is done and not the end. -/
theorem next_of_popStep (h : x.popStep p st s delta = .next x') :
    ∃ e rest, pop x.heap = some (e, rest) ∧
      ((x.done[e.node] = true ∧ x' = { x with heap := rest }) ∨
      (x.done[e.node] = false ∧ (e.node ≠ s → -delta < st.excess[e.node]) ∧
        x' = p.rows[e.node].toList.foldl (Dijkstra.relax p st delta e.dist)
          ({ x with heap := rest }.finish e.node))) := by
  rcases popStep_cases p st s delta x with ⟨-, heq⟩ | ⟨e, rest, hpop, hcases⟩
  · rw [heq] at h
    cases h
  · refine ⟨e, rest, hpop, ?_⟩
    rcases hcases with ⟨hdone, heq⟩ | ⟨-, -, -, heq⟩ | ⟨hdone, hsated, heq⟩
    all_goals rw [heq] at h; cases h
    · exact Or.inl ⟨hdone, rfl⟩
    · exact Or.inr ⟨hdone, hsated, rfl⟩

/-- A run ends when nothing is left, or at a deficit. -/
theorem done_of_popStep {result : Dijkstra n m α × Option (Fin n)}
    (h : x.popStep p st s delta = .done result) :
    (pop x.heap = none ∧ result = (x, none)) ∨
      ∃ e rest, pop x.heap = some (e, rest) ∧ x.done[e.node] = false ∧ e.node ≠ s ∧
        st.excess[e.node] ≤ -delta ∧
        result = ({ x with heap := rest }.finish e.node, some e.node) := by
  rcases popStep_cases p st s delta x with ⟨hpop, heq⟩ | ⟨e, rest, hpop, hcases⟩
  · rw [heq] at h
    cases h
    exact Or.inl ⟨hpop, rfl⟩
  · rcases hcases with ⟨-, heq⟩ | ⟨hdone, hne, hdeficit, heq⟩ | ⟨-, -, heq⟩
    all_goals rw [heq] at h; cases h
    exact Or.inr ⟨e, rest, hpop, hdone, hne, hdeficit, rfl⟩

/-- The node of an entry that is taken out of the heap has been touched. -/
theorem Clean.popped {e : Entry n α} {rest : List (Entry n α)} (h : x.Clean)
    (hpop : pop x.heap = some (e, rest)) : { x with heap := rest }.Clean ∧ e.node ∈ x.touched := by
  have hperm := perm_of_pop hpop
  exact ⟨⟨h.reached, h.done, fun y hy => h.heap y (hperm.mem_iff.mpr (List.mem_cons_of_mem _ hy))⟩,
    h.heap e (hperm.mem_iff.mpr List.mem_cons_self)⟩

theorem Clean.run (h : x.Clean) (hrun : x.run p st s delta fuel = .ok (x', t)) : x'.Clean := by
  refine iterate_invariant (P := Clean) (Q := fun result => result.1.Clean) ?_ ?_ (h.begin s) hrun
  · intro x₁ x₂ h₁ hnext
    obtain ⟨e, rest, hpop, ⟨-, rfl⟩ | ⟨-, -, rfl⟩⟩ := next_of_popStep (Scalar.checked_eq_ok.mp hnext).2
    · exact (h₁.popped hpop).1
    · obtain ⟨hrest, he⟩ := h₁.popped hpop
      exact (hrest.finish he).foldl_relax _
  · intro x₁ result h₁ hend
    rcases done_of_popStep (Scalar.checked_eq_ok.mp hend).2 with ⟨-, rfl⟩ | ⟨e, rest, hpop, -, -, -, rfl⟩
    · exact h₁
    · obtain ⟨hrest, he⟩ := h₁.popped hpop
      exact hrest.finish he

/-- The buffers that runs leave are clean. -/
theorem Used.clean (h : x.Used) : x.Clean := by
  induction h with
  | new => exact ⟨by simp [Dijkstra.new], by simp [Dijkstra.new], by simp [Dijkstra.new]⟩
  | run _ hrun ih => exact ih.run hrun

/-! ## Runs end -/

/-- What is left to do: the entries of the heap, and the residual arcs of the nodes that are not
done. -/
def work (p : Indexed n m α) (x : Dijkstra n m α) : Nat :=
  x.heap.length + ∑ v : Fin n, if x.done[v] then 0 else p.rows[v].size

theorem foldl_relax_le (p : Indexed n m α) (st : State n m α) (delta : Int) (d : α)
    (x : Dijkstra n m α) (rs : List (ResidualArc m)) :
    (rs.foldl (relax p st delta d) x).done = x.done ∧
      (rs.foldl (relax p st delta d) x).heap.length ≤ x.heap.length + rs.length := by
  induction rs generalizing x with
  | nil => exact ⟨rfl, Nat.le_refl _⟩
  | cons r rs ih =>
      obtain ⟨hdone, hheap⟩ := ih (relax p st delta d x r)
      rw [List.foldl_cons, List.length_cons]
      rcases relax_cases p st delta d x r with ⟨heq, -⟩ | ⟨-, -, -, heq⟩
      · rw [heq] at hdone hheap
        exact ⟨by rwa [heq], by rw [heq]; omega⟩
      · have hone : (relax p st delta d x r).heap.length = x.heap.length + 1 := by simp [heq]
        exact ⟨hdone.trans (by rw [heq]), by omega⟩

omit [Scalar α] in
/-- When a node is done, its residual arcs are no longer left. -/
theorem work_finish (p : Indexed n m α) (hu : x.done[u] = false) :
    (x.finish u).work p + p.rows[u].size = x.work p := by
  have hsum : (∑ v : Fin n, if (x.finish u).done[v] then 0 else p.rows[v].size) + p.rows[u].size =
      ∑ v : Fin n, if x.done[v] then 0 else p.rows[v].size := by
    rw [← Finset.add_sum_erase _ _ (Finset.mem_univ u),
      ← Finset.add_sum_erase Finset.univ (fun v : Fin n => if x.done[v] then 0 else p.rows[v].size)
        (Finset.mem_univ u)]
    have hrest : ∀ v ∈ Finset.univ.erase u, (if (x.finish u).done[v] then 0 else p.rows[v].size) =
        if x.done[v] then 0 else p.rows[v].size := by
      intro v hv
      rw [finish, Table.getElem_set_of_ne _ _ (Ne.symm (Finset.ne_of_mem_erase hv))]
    have hself : (x.finish u).done[u] = true := Table.getElem_set_self _ _ _
    rw [Finset.sum_congr rfl hrest, if_pos hself, hu]
    simp only [Bool.false_eq_true, if_false]
    omega
  unfold work
  show x.heap.length + _ + _ = _
  omega

/-- Every step but the last one leaves less to do. -/
theorem work_lt (h : x.popStep p st s delta = .next x') : x'.work p < x.work p := by
  obtain ⟨e, rest, hpop, hcases⟩ := next_of_popStep h
  have hrest : { x with heap := rest }.work p + 1 = x.work p := by
    show rest.length + (∑ v : Fin n, if x.done[v] then 0 else p.rows[v].size) + 1 = _
    rw [work, (perm_of_pop hpop).length_eq, List.length_cons]
    omega
  rcases hcases with ⟨-, rfl⟩ | ⟨hdone, -, rfl⟩
  · omega
  · have hfinish := work_finish (x := { x with heap := rest }) p hdone
    obtain ⟨hsame, hheap⟩ := foldl_relax_le p st delta e.dist
      ({ x with heap := rest }.finish e.node) p.rows[e.node].toList
    rw [Array.length_toList] at hheap
    unfold work at hfinish hrest ⊢
    rw [hsame]
    omega

/-- Whatever the buffers, a run ends after no more steps than there are residual arcs, and two. -/
theorem run_ne_outOfFuel (p : Indexed n m α) (st : State n m α) (s : Fin n) (delta : Int)
    (x : Dijkstra n m α) {fuel : Nat} (hfuel : ∑ v : Fin n, p.rows[v].size + 2 ≤ fuel) :
    x.run p st s delta fuel ≠ .error .outOfFuel := by
  have hwork : (x.begin s).work p < ∑ v : Fin n, p.rows[v].size + 2 := by
    have hsum : (∑ v : Fin n, if (x.begin s).done[v] then 0 else p.rows[v].size) ≤
        ∑ v : Fin n, p.rows[v].size := Finset.sum_le_sum fun v _ => by split <;> omega
    unfold work
    show 1 + _ < _
    omega
  exact iterate_ne_outOfFuel_of_lt (fun _ => Scalar.checked_ne_outOfFuel)
    (fun _ _ hnext => work_lt (Scalar.checked_eq_ok.mp hnext).2) (by omega)

theorem run_mono {fuel fuel' : Nat} (hfuel : fuel ≤ fuel') :
    Persists (x.run p st s delta fuel) (x.run p st s delta fuel') :=
  .iterate (fun _ => .rfl) hfuel

/-! ## The search over all nodes -/

/-- The buffers say what the search over all nodes knows. -/
structure Follows (x : Dijkstra n m α) (s : Fin n) (q : Search n m α) : Prop where
  done_eq : ∀ v : Fin n, x.done[v] = q.settled[v]
  reached_eq : ∀ v : Fin n, x.reached[v] = q.dist[v].isSome
  dist_eq : ∀ (v : Fin n) d, q.dist[v] = some d → x.dist[v] = d
  pred_eq : ∀ v : Fin n, v ≠ s → q.dist[v].isSome → x.pred[v] = q.pred[v]
  settled_eq : x.settled = q.order.map (·.1)
  /-- What is reached and not settled waits at its distance. -/
  waits : ∀ (v : Fin n) d, q.settled[v] = false → q.dist[v] = some d → ⟨d, v⟩ ∈ x.heap
  /-- Older entries of it are not nearer. -/
  not_nearer : ∀ e ∈ x.heap, q.settled[e.node] = false →
    ∃ d, q.dist[e.node] = some d ∧ ¬ e.dist < d

variable {q : Search n m α} [IsStrictTotalOrder α (· < ·)]

/-- Clean buffers are as good as new. -/
theorem Clean.follows (h : x.Clean) (s : Fin n) : (x.begin s).Follows s (Search.start s) where
  done_eq v := by simp [Dijkstra.begin, Search.start, (h.unmarked v).2]
  reached_eq v := by
    simp only [Dijkstra.begin, Search.start, Table.getElem_set, (h.unmarked v).1,
      Table.getElem_const]
    split <;> rfl
  dist_eq v d hd := by
    simp only [Search.start, Table.getElem_set, Table.getElem_const] at hd
    split at hd
    · rename_i heq
      cases hd
      simp [Dijkstra.begin, heq]
    · cases hd
  pred_eq v hne hreached := by
    simp [Search.start, Table.getElem_set_of_ne _ _ (Ne.symm hne)] at hreached
  settled_eq := rfl
  waits v d _ hd := by
    simp only [Search.start, Table.getElem_set, Table.getElem_const] at hd
    split at hd
    · rename_i heq
      cases hd
      simp [Dijkstra.begin, heq]
    · cases hd
  not_nearer e he _ := by
    obtain rfl := List.mem_singleton.mp he
    exact ⟨0, by simp [Search.start], irrefl _⟩

omit [IsStrictTotalOrder α (· < ·)] in
theorem Follows.better_iff (h : x.Follows s q) (candidate : α) (v : Fin n) :
    better candidate q.dist[v] = true ↔ (x.reached[v] = true → candidate < x.dist[v]) := by
  rw [h.reached_eq]
  cases hd : q.dist[v] with
  | none => simp [better]
  | some y => simp [better, h.dist_eq v y hd]

/-- Both searches reach a node on a better path. -/
theorem Follows.reach (h : x.Follows s q) {v : Fin n} {candidate : α} {r : ResidualArc m}
    (hbetter : x.reached[v] = true → candidate < x.dist[v]) (touched : List (Fin n)) :
    { x with
      dist := x.dist.set v candidate
      pred := x.pred.set v (some r)
      reached := x.reached.set v true
      touched := touched
      heap := ⟨candidate, v⟩ :: x.heap }.Follows s
    { q with dist := q.dist.set v (some candidate), pred := q.pred.set v (some r) } where
  done_eq := h.done_eq
  reached_eq w := by
    rw [Table.getElem_set, Table.getElem_set]
    split
    · rfl
    · exact h.reached_eq w
  dist_eq w d hd := by
    rw [Table.getElem_set] at hd ⊢
    split at hd
    · rename_i heq
      cases hd
      rw [if_pos heq]
    · rename_i hne
      rw [if_neg hne]
      exact h.dist_eq w d hd
  pred_eq w hw hreached := by
    rw [Table.getElem_set] at hreached
    rw [Table.getElem_set, Table.getElem_set]
    split
    · rfl
    · rename_i hne
      rw [if_neg hne] at hreached
      exact h.pred_eq w hw hreached
  settled_eq := h.settled_eq
  waits w d hs hd := by
    rw [Table.getElem_set] at hd
    split at hd
    · rename_i heq
      cases hd
      exact heq ▸ List.mem_cons_self
    · exact List.mem_cons_of_mem _ (h.waits w d hs hd)
  not_nearer e he hs := by
    rcases List.mem_cons.mp he with rfl | he
    · exact ⟨candidate, Table.getElem_set_self _ _ _, irrefl _⟩
    · obtain ⟨d, hd, hnot⟩ := h.not_nearer e he hs
      by_cases heq : v = e.node
      · -- an entry of the same node was not nearer than the old distance, which was larger
        subst heq
        have hless := hbetter (by rw [h.reached_eq, hd]; rfl)
        rw [h.dist_eq _ d hd] at hless
        exact ⟨candidate, Table.getElem_set_self _ _ _,
          fun hnear => hnot (IsTrans.trans _ _ _ hnear hless)⟩
      · exact ⟨d, by rw [Table.getElem_set_of_ne _ _ heq, hd], hnot⟩

/-- Looking along a residual arc, both searches learn the same. -/
theorem Follows.relax (h : x.Follows s q) (r : ResidualArc m) :
    (relax p st delta d x r).Follows s (look p st delta d q r) := by
  have hbetter := h.better_iff (d + length p st r) (p.target r)
  rcases relax_cases p st delta d x r with ⟨heq, hworse⟩ | ⟨hroom, hdone, hless, heq⟩
  · rcases look_eq p st delta d q r with ⟨heq', -⟩ | ⟨hroom, hs, hbetter', -⟩
    · rwa [heq, heq']
    · obtain ⟨hreached, hnot⟩ := hworse hroom ((h.done_eq _).trans hs)
      exact absurd (hbetter.mp hbetter' hreached) hnot
  · rcases look_eq p st delta d q r with ⟨-, hworse⟩ | ⟨-, -, -, heq'⟩
    · have hworse := hworse hroom ((h.done_eq _).symm.trans hdone)
      rw [hbetter.mpr hless] at hworse
      cases hworse
    · rw [heq, heq']
      exact h.reach hless _

theorem Follows.foldl_relax (h : x.Follows s q) (rs : List (ResidualArc m)) :
    (rs.foldl (Dijkstra.relax p st delta d) x).Follows s (rs.foldl (look p st delta d) q) := by
  induction rs generalizing x q with
  | nil => exact h
  | cons r rs ih => exact ih (h.relax r)

section Nearest

variable {v : Fin n} {best : Option (Fin n × α)}

/-- A node that precedes the others stays the nearest one. -/
theorem nearer_of_precedes
    (hleast : ∀ y, q.settled[v] = false → q.dist[v] = some y → Entry.Precedes ⟨d, u⟩ ⟨y, v⟩) :
    nearer q (some (u, d)) v = some (u, d) := by
  unfold nearer
  cases hsv : q.settled[v] with
  | true => rfl
  | false =>
      cases hdv : q.dist[v] with
      | none => rfl
      | some y =>
          rcases hleast y hsv hdv with hless | ⟨heq, -⟩
          · simp [asymm hless]
          · simp [show d = y from heq, irrefl]

omit [IsStrictTotalOrder α (· < ·)] in
/-- It becomes the nearest one if what is nearest so far is farther away. -/
theorem nearer_eq_self (hs : q.settled[u] = false) (hd : q.dist[u] = some d)
    (hbest : ∀ y ∈ best, d < y.2) : nearer q best u = some (u, d) := by
  unfold nearer
  rw [hs, hd]
  rcases best with _ | y
  · rfl
  · simp [hbest y rfl]

omit [IsStrictTotalOrder α (· < ·)] in
/-- What is nearest so far stays farther away when a node is looked at that is farther away. -/
theorem lt_nearer (hfar : ∀ y, q.settled[v] = false → q.dist[v] = some y → d < y)
    (hbest : ∀ y ∈ best, d < y.2) : ∀ y ∈ nearer q best v, d < y.2 := by
  intro y hy
  unfold nearer at hy
  cases hsv : q.settled[v] with
  | true => exact hbest y (by simpa [hsv] using hy)
  | false =>
      cases hdv : q.dist[v] with
      | none => exact hbest y (by simpa [hsv, hdv] using hy)
      | some dv =>
          have hless := hfar dv hsv hdv
          rcases best with _ | old
          · simp only [hsv, hdv] at hy
            cases hy
            exact hless
          · simp only [hsv, hdv] at hy
            split at hy
            · cases hy
              exact hless
            · exact hbest y hy

/-- The search over all nodes finds the node that precedes all others. -/
theorem nearest_eq_of_precedes (hs : q.settled[u] = false) (hd : q.dist[u] = some d)
    (hleast : ∀ (v : Fin n) y, q.settled[v] = false → q.dist[v] = some y →
      Entry.Precedes ⟨d, u⟩ ⟨y, v⟩) : q.nearest = some (u, d) := by
  have hkeep : ∀ nodes : List (Fin n), nodes.foldl (nearer q) (some (u, d)) = some (u, d) :=
    fun nodes => List.foldlRecOn (motive := (· = some (u, d))) nodes (nearer q) rfl
      fun _ h v _ => h.symm ▸ nearer_of_precedes (hleast v)
  -- before the node, whatever is nearest so far is farther away than it
  have hfind : ∀ (nodes : List (Fin n)) (best : Option (Fin n × α)), nodes.Pairwise (· < ·) →
      u ∈ nodes → (∀ y ∈ best, d < y.2) → nodes.foldl (nearer q) best = some (u, d) := by
    intro nodes
    induction nodes with
    | nil => simp
    | cons v nodes ih =>
        intro best hsorted hmem hbest
        obtain ⟨hfirst, hsorted⟩ := List.pairwise_cons.mp hsorted
        rw [List.foldl_cons]
        rcases List.mem_cons.mp hmem with rfl | hmem
        · rw [nearer_eq_self hs hd hbest, hkeep]
        · have hfar : ∀ y, q.settled[v] = false → q.dist[v] = some y → d < y := fun y hsv hdv =>
            (hleast v y hsv hdv).resolve_right fun h => absurd (hfirst u hmem) (not_lt.mpr h.2)
          exact ih _ hsorted hmem (lt_nearer hfar hbest)
  exact hfind (List.finRange n) none (List.pairwise_lt_finRange n) (List.mem_finRange u) (by simp)

end Nearest

section Popped

variable {e : Entry n α} {rest : List (Entry n α)}

omit [IsStrictTotalOrder α (· < ·)] in
/-- An entry of a node that is done tells nothing. -/
theorem Follows.skip (h : x.Follows s q) (hpop : pop x.heap = some (e, rest))
    (hdone : x.done[e.node] = true) : { x with heap := rest }.Follows s q where
  done_eq := h.done_eq
  reached_eq := h.reached_eq
  dist_eq := h.dist_eq
  pred_eq := h.pred_eq
  settled_eq := h.settled_eq
  waits v d hs hd := by
    have hmem := (perm_of_pop hpop).mem_iff.mp (h.waits v d hs hd)
    refine (List.mem_cons.mp hmem).resolve_left ?_
    rintro rfl
    rw [h.done_eq, hs] at hdone
    cases hdone
  not_nearer y hy hs :=
    h.not_nearer y ((perm_of_pop hpop).mem_iff.mpr (List.mem_cons_of_mem _ hy)) hs

omit [IsStrictTotalOrder α (· < ·)] in
/-- When nothing waits in the heap, there is no nearest node: it would wait there. -/
theorem Follows.nearest_eq_none (h : x.Follows s q) (hpop : pop x.heap = none) :
    q.nearest = none := by
  cases hnearest : q.nearest with
  | none => rfl
  | some y =>
      obtain ⟨hs, hd⟩ := unsettled_of_nearest hnearest
      have hwaits := h.waits y.1 y.2 hs hd
      rw [eq_nil_of_pop hpop] at hwaits
      cases hwaits

/-- A node that is taken out of the heap and is not done is the nearest one. -/
theorem Follows.nearest (h : x.Follows s q) (hpop : pop x.heap = some (e, rest))
    (hdone : x.done[e.node] = false) : q.nearest = some (e.node, e.dist) := by
  have hs := (h.done_eq e.node).symm.trans hdone
  have hfirst := precedes_of_pop hpop
  obtain ⟨d, hd, hnot⟩ :=
    h.not_nearer e ((perm_of_pop hpop).mem_iff.mpr List.mem_cons_self) hs
  have heq : e.dist = d := by
    rcases hfirst _ (h.waits e.node d hs hd) with hless | ⟨heq, -⟩
    · exact absurd hless hnot
    · exact heq
  refine nearest_eq_of_precedes hs (heq ▸ hd) fun v y hsv hdv => ?_
  exact hfirst _ (h.waits v y hsv hdv)

omit [IsStrictTotalOrder α (· < ·)] in
/-- Both searches settle it. -/
theorem Follows.settle (h : x.Follows s q) (hpop : pop x.heap = some (e, rest)) :
    ({ x with heap := rest }.finish e.node).Follows s (q.settle e.node e.dist) := by
  have hunsettled : ∀ v : Fin n, (q.settle e.node e.dist).settled[v] = false →
      v ≠ e.node ∧ q.settled[v] = false := by
    intro v hs
    rw [Search.settle, Table.getElem_set] at hs
    split at hs
    · cases hs
    · rename_i hne
      exact ⟨Ne.symm hne, hs⟩
  constructor
  case done_eq =>
    intro v
    show (x.done.set e.node true)[v] = (q.settled.set e.node true)[v]
    rw [Table.getElem_set, Table.getElem_set, h.done_eq]
  case reached_eq => exact h.reached_eq
  case dist_eq => exact h.dist_eq
  case pred_eq => exact h.pred_eq
  case settled_eq => exact congrArg (e.node :: ·) h.settled_eq
  case waits =>
    intro v d hs hd
    obtain ⟨hne, hs⟩ := hunsettled v hs
    have hmem := (perm_of_pop hpop).mem_iff.mp (h.waits v d hs hd)
    exact (List.mem_cons.mp hmem).resolve_left fun heq => hne (congrArg Entry.node heq)
  case not_nearer =>
    intro y hy hs
    exact h.not_nearer y ((perm_of_pop hpop).mem_iff.mpr (List.mem_cons_of_mem _ hy))
      (hunsettled _ hs).2

end Popped

/-! ## What a run finds -/

/-- What holds of the search over all nodes, and is kept when it settles a node, holds when a run
ends: without a nearest node, or at a deficit that is the nearest node. -/
theorem run_spec {P : Search n m α → Prop} (hstart : P (Search.start s))
    (hstep : ∀ q u d, P q → q.nearest = some (u, d) → (u ≠ s → -delta < st.excess[u]) →
      P (p.rows[u].toList.foldl (look p st delta d) (q.settle u d)))
    (hclean : x.Clean) (hrun : x.run p st s delta fuel = .ok (x', t)) :
    (t = none ∧ ∃ q, P q ∧ q.nearest = none ∧ x'.Follows s q) ∨
      ∃ q u d, t = some u ∧ P q ∧ q.nearest = some (u, d) ∧ u ≠ s ∧ st.excess[u] ≤ -delta ∧
        x'.Follows s (q.settle u d) := by
  refine iterate_invariant (P := fun x => ∃ q, P q ∧ x.Follows s q)
    (Q := fun result => (result.2 = none ∧ ∃ q, P q ∧ q.nearest = none ∧ result.1.Follows s q) ∨
      ∃ q u d, result.2 = some u ∧ P q ∧ q.nearest = some (u, d) ∧ u ≠ s ∧ st.excess[u] ≤ -delta ∧
        result.1.Follows s (q.settle u d)) ?_ ?_ ⟨_, hstart, hclean.follows s⟩ hrun
  · rintro x₁ x₂ ⟨q, hq, hfollows⟩ hnext
    obtain ⟨e, rest, hpop, ⟨hdone, rfl⟩ | ⟨hdone, hsated, rfl⟩⟩ :=
      next_of_popStep (Scalar.checked_eq_ok.mp hnext).2
    · exact ⟨q, hq, hfollows.skip hpop hdone⟩
    · exact ⟨_, hstep q _ _ hq (hfollows.nearest hpop hdone) hsated,
        (hfollows.settle hpop).foldl_relax _⟩
  · rintro x₁ result ⟨q, hq, hfollows⟩ hend
    rcases done_of_popStep (Scalar.checked_eq_ok.mp hend).2 with
      ⟨hpop, rfl⟩ | ⟨e, rest, hpop, hdone, hne, hdeficit, rfl⟩
    · exact Or.inl ⟨rfl, q, hq, hfollows.nearest_eq_none hpop, hfollows⟩
    · exact Or.inr ⟨q, e.node, e.dist, rfl, hq, hfollows.nearest hpop hdone, hne, hdeficit,
        hfollows.settle hpop⟩

omit [IsStrictTotalOrder α (· < ·)] in
/-- Both searches go back on the same way. -/
theorem Follows.pathBack_eq (h : x.Follows s q)
    (hback : ∀ (v : Fin n) d, q.dist[v] = some d → v = s ∨
      ∃ r, q.pred[v] = some r ∧ q.dist[p.source r].isSome) (count : Nat) {v : Fin n}
    (hv : q.dist[v].isSome) : pathBack p x.pred s count v = pathBack p q.pred s count v := by
  induction count generalizing v with
  | zero => rfl
  | succ count ih =>
      by_cases hvs : v = s
      · simp only [pathBack, hvs, if_true]
      · obtain ⟨d, hd⟩ := Option.isSome_iff_exists.mp hv
        obtain ⟨r, hpred, hsource⟩ := (hback v d hd).resolve_left hvs
        simp only [pathBack, hvs, if_false, h.pred_eq v hvs hv, hpred]
        rw [ih hsource]

omit [IsStrictTotalOrder α (· < ·)] in
/-- What is read off the buffers is what the search over all nodes returns. -/
theorem Follows.route_eq (hq : q.Linked p st s delta) (hnearest : q.nearest = some (u, d))
    (h : x.Follows s (q.settle u d)) : x.route p s u =
      { target := u, dist := d, path := pathBack p q.pred s n u,
        settled := (u, d) :: q.order } := by
  have hdist : ∀ v e, (v, e) ∈ (q.settle u d).order → x.dist[v] = e := fun v e hv =>
    h.dist_eq v e (hq.dist_settle hnearest hv)
  have hback : ∀ (v : Fin n) e, q.dist[v] = some e → v = s ∨
      ∃ r, q.pred[v] = some r ∧ q.dist[p.source r].isSome := by
    intro v e he
    refine (hq.reached v e he).imp_right ?_
    rintro ⟨r, du, hpred, -, hsource, -⟩
    exact ⟨r, hpred, by rw [hq.dist_order _ _ hsource]; rfl⟩
  have hsettled : (x.settled.map fun v => (v, x.dist[v])) = (u, d) :: q.order := by
    rw [h.settled_eq, List.map_map]
    refine (List.map_congr_left fun y hy => ?_).trans (List.map_id _)
    exact Prod.ext rfl (hdist y.1 y.2 hy)
  have hpath := h.pathBack_eq hback n (v := u) (by
    show q.dist[u].isSome
    rw [(unsettled_of_nearest hnearest).2]
    rfl)
  unfold route
  rw [hsettled, hdist u d List.mem_cons_self, hpath]
  rfl

/-- Whatever the buffers were used for before, and in any arithmetic whose order is total, a run
returns the way that the search over all nodes returns. -/
theorem run_eq (hrows : p.rows = p.toNetwork.rows) (hclean : x.Clean)
    (hrun : x.run p st s delta fuel = .ok (x', t)) :
    nearestDeficit p st s delta = t.map (x'.route p s) := by
  -- from every search that is passed, the same way is found
  let P : Search n m α → Prop := fun q => q.Linked p st s delta ∧
    searchFrom p st s delta (n + 1 - q.order.length) q = nearestDeficit p st s delta
  have hleft : ∀ q : Search n m α, q.Linked p st s delta →
      n + 1 - q.order.length = n - q.order.length + 1 := fun q hq => by
    have := hq.length_le
    omega
  have hstep : ∀ q u d, P q → q.nearest = some (u, d) → (u ≠ s → -delta < st.excess[u]) →
      P (p.rows[u].toList.foldl (look p st delta d) (q.settle u d)) := by
    rintro q u d ⟨hq, hsame⟩ hnearest hsated
    have hlooked := looked_foldl p st delta d p.rows[u].toList (q.settle u d)
    have hnot : ¬ (u ≠ s ∧ st.excess[u] ≤ -delta) := fun h => not_lt.mpr h.2 (hsated h.1)
    refine ⟨hq.step hnearest hsated (fun _ => Network.mem_row hrows) hlooked, ?_⟩
    rw [hleft q hq] at hsame
    simp only [searchFrom, hnearest, hnot, if_false] at hsame
    rw [hlooked.order_eq, ← hsame, Array.foldl_toList]
    show searchFrom p st s delta (n + 1 - (q.order.length + 1)) _ = _
    rw [Nat.add_sub_add_right]
    rfl
  rcases run_spec (P := P) ⟨Search.Linked.start s, rfl⟩ hstep hclean hrun with
    ⟨rfl, q, ⟨hq, hsame⟩, hnearest, -⟩ |
    ⟨q, u, d, rfl, ⟨hq, hsame⟩, hnearest, hne, hdeficit, hfollows⟩
  · rw [hleft q hq] at hsame
    simpa [searchFrom, hnearest] using hsame.symm
  · rw [hleft q hq] at hsame
    simp only [searchFrom, hnearest, hne, hdeficit, ne_eq, not_false_eq_true, and_self, if_true]
      at hsame
    rw [← hsame, Option.map_some, hfollows.route_eq hq hnearest]

end Dijkstra

end NetworkFlow.CapacityScaling
