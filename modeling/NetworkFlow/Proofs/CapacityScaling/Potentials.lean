import NetworkFlow.Proofs.CapacityScaling.Phases

/-!
# How far potentials fall

The distance of a node is what the way to it costs, but for the difference of the potentials
at its ends. A deficit keeps its potential for a whole phase, and the nodes settled on the
way to it end up at its potential but for what two ways cost. So if no potential is below
`-low` when a phase begins, none is below that by more than the cost of two ways when it
ends, however many ways were used.

## Main results

* `near_route`: the distances of a way that the search returns.
* `Deep.augment`: what an augmentation leaves of the potentials.
-/

namespace NetworkFlow.CapacityScaling

open scoped ExactCosts

variable {n m : Nat} [inst : ExactCosts] {p : Indexed n m Int} {st : State n m Int} {s : Fin n}
  {delta top low : Int}

section Search

/-- What a search knows is right, and the distances are those of ways with no more arcs than
there are settled nodes. -/
structure Search.Near (p : Indexed n m Int) (st : State n m Int) (s : Fin n) (delta top : Int)
    (q : Search n m Int) : Prop extends Search.Valid p st s delta q where
  near : ∀ (v : Fin n) d, q.dist[v] = some d →
    |d + st.potential[v] - st.potential[s]| ≤ q.order.length * top

/-- A valid way with distances of short ways, the last settled node being its end. -/
structure Route.Near (p : Indexed n m Int) (st : State n m Int) (s : Fin n) (delta top : Int)
    (way : Route n m Int) : Prop extends Route.Valid p st s delta way where
  target_settled : (way.target, way.dist) ∈ way.settled
  nonneg : ∀ v d, (v, d) ∈ way.settled → 0 ≤ d
  near : ∀ v d, (v, d) ∈ way.settled → |d + st.potential[v] - st.potential[s]| ≤ n * top
  sated : ∀ v d, (v, d) ∈ way.settled → v ≠ s → v ≠ way.target → -delta < st.excess[v]

variable {q q' : Search n m Int} {u : Fin n} {d : Int} {rs : List (ResidualArc m)}

theorem Search.Near.start (s : Fin n) :
    (Search.start s : Search n m Int).Near p st s delta top where
  toValid := Search.Valid.start s
  near v d h := by
    simp only [Search.start, Table.getElem_set, Table.getElem_const, scalar_zero_eq] at h
    split at h
    · rename_i hv
      cases h
      simp [Search.start, hv]
    · cases h

omit inst in
/-- Along a wide residual arc a distance grows by its reduced cost, so the cost of the way grows
by that of the arc. -/
theorem near_along (htop : ∀ a : Fin m, |p.cost[a]| ≤ top) {k : Int} (r : ResidualArc m)
    (hnear : |d + st.potential[p.source r] - st.potential[s]| ≤ k * top) :
    |d + p.reduced p.cost st.potential r + st.potential[p.target r] - st.potential[s]| ≤
      (k + 1) * top := by
  have hprice := abs_le.mp (abs_price_le htop r)
  have hnear := abs_le.mp hnear
  unfold Network.reduced
  rw [add_mul, one_mul, abs_le]
  constructor <;> omega

/-- Settling the nearest node and looking along the residual arcs that leave it makes the ways
longer by one arc at most. -/
theorem Search.Near.step (htop : ∀ a : Fin m, |p.cost[a]| ≤ top) (hnonneg : 0 ≤ top)
    (hopt : WideOptimal p st delta) (h : q.Near p st s delta top)
    (hnearest : q.nearest = some (u, d)) (hsated : u ≠ s → -delta < st.excess[u])
    (hrs : ∀ r, r ∈ rs ↔ p.source r = u) :
    (rs.foldl (look p st delta d) (q.settle u d)).Near p st s delta top := by
  have hlook := looked_foldl p st delta d rs (q.settle u d)
  refine ⟨h.toValid.step hopt hnearest hsated hrs hlook (lowered_foldl hopt d rs _),
    fun v x hx => ?_⟩
  have hlength : ((rs.foldl (look p st delta d) (q.settle u d)).order.length : Int) =
      q.order.length + 1 := by
    rw [hlook.order_eq]
    show (((u, d) :: q.order).length : Int) = _
    push_cast [List.length_cons]
    rfl
  rw [hlength]
  rcases hlook.origin v x hx with ⟨hold, -⟩ | ⟨r, hr, -, rfl, hroom, rfl⟩
  · have := h.near v x hold
    rw [add_mul, one_mul]
    omega
  · obtain rfl := (hrs r).mp hr
    rw [length_eq hopt hroom, scalar_add_eq]
    exact near_along htop r (h.near _ d (unsettled_of_nearest hnearest).2)

/-- The settled nodes are near, the one to be settled next among them. -/
theorem Search.Near.near_settle (hnonneg : 0 ≤ top) (h : q.Near p st s delta top)
    (hnearest : q.nearest = some (u, d)) {v : Fin n} {e : Int}
    (hv : (v, e) ∈ (q.settle u d).order) :
    |e + st.potential[v] - st.potential[s]| ≤ n * top := by
  have hnear := h.near v e (h.dist_settle hnearest hv)
  have hlength : (q.order.length : Int) ≤ n := by exact_mod_cast h.length_le
  exact hnear.trans (mul_le_mul_of_nonneg_right hlength hnonneg)

/-- A way that the search returns has the distances of short ways. -/
theorem near_route (htop : ∀ a : Fin m, |p.cost[a]| ≤ top) (hnonneg : 0 ≤ top)
    (hrows : p.rows = p.toNetwork.rows) (hopt : WideOptimal p st delta) {way : Route n m Int}
    (h : nearestDeficit p st s delta = some way) : Route.Near p st s delta top way := by
  obtain ⟨q, u, d, hq, hnearest, hne, hdeficit, rfl⟩ :=
    (searchFrom_spec (P := fun q => q.Near p st s delta top) (fun _ hq => hq.toLinked)
      (fun q u d hq hnearest hsated => hq.step htop hnonneg hopt hnearest hsated
        fun _ => Network.mem_row hrows)
      (Search.Near.start s) (by simp [Search.start])).1 way h
  refine ⟨hq.toValid.route hopt hnearest hne hdeficit, List.mem_cons_self,
    fun v e hv => hq.nonneg v e (hq.dist_settle hnearest hv),
    fun v e hv => hq.near_settle hnonneg hnearest hv, fun v e hv hvs hvu => ?_⟩
  rcases List.mem_cons.mp hv with heq | hv
  · cases heq
    exact absurd rfl hvu
  · exact hq.sated v e hv hvs

end Search

section Augment

omit inst in
/-- The potentials in a phase that began with none below `-low`: none is above zero, and the
deficits still have theirs. -/
structure Deep (delta low fall : Int) (st : State n m Int) : Prop where
  nonpos : ∀ v : Fin n, st.potential[v] ≤ 0
  deep : ∀ v : Fin n, -(low + fall) ≤ st.potential[v]
  deficit : ∀ v : Fin n, st.excess[v] ≤ -delta → -low ≤ st.potential[v]

variable {way : Route n m Int}

omit inst in
/-- A settled node ends up at the potential of the target, but for what two ways cost. -/
theorem le_shift (h : Deep delta low (2 * (n * top)) st) (hway : Route.Near p st s delta top way)
    {v : Fin n} {d : Int} (hv : (v, d) ∈ way.settled) :
    -(low + 2 * (n * top)) ≤ st.potential[v] + (d - way.dist) := by
  have htarget := h.deficit _ hway.deficit
  have hnear := abs_le.mp (hway.near v d hv)
  have hdist := abs_le.mp (hway.near _ _ hway.target_settled)
  omega

/-- An augmentation keeps the potentials from falling farther. -/
theorem Deep.augment (h : Deep delta low (2 * (n * top)) st)
    (hway : Route.Near p st s delta top way) (hdelta : 1 ≤ delta) :
    Deep delta low (2 * (n * top)) (augment p st s way) := by
  have hnodup := hway.settled_nodup
  refine ⟨fun v => ?_, fun v => ?_, fun v hv => ?_⟩
  · exact (getElem_shift_le hnodup hway.le_dist st.potential v).trans (h.nonpos v)
  · show _ ≤ (shift st.potential way.settled way.dist)[v]
    by_cases hmem : v ∈ way.settled.map (·.1)
    · obtain ⟨⟨u, d⟩, hu, rfl⟩ := List.mem_map.mp hmem
      rw [getElem_shift_of_mem hnodup hu]
      exact le_shift h hway hu
    · rw [getElem_shift_of_notMem hmem]
      exact h.deep v
  · show _ ≤ (shift st.potential way.settled way.dist)[v]
    rw [excess_augment hway.target_ne] at hv
    by_cases htarget : v = way.target
    · subst htarget
      rw [getElem_shift_of_mem hnodup hway.target_settled]
      have := h.deficit _ hway.deficit
      omega
    · -- the start keeps no deficit, and no other deficit is settled
      have hvs : v ≠ s := by
        rintro rfl
        obtain ⟨hsent, -⟩ := sent_le p st v way
        rw [if_pos rfl, if_neg (Ne.symm htarget)] at hv
        omega
      rw [if_neg hvs.symm, if_neg (Ne.symm htarget)] at hv
      have hmem : v ∉ way.settled.map (·.1) := by
        intro hmem
        obtain ⟨⟨u, d⟩, hu, rfl⟩ := List.mem_map.mp hmem
        have := hway.sated u d hu hvs htarget
        simp only at hv
        omega
      rw [getElem_shift_of_notMem hmem]
      exact h.deficit v (by omega)

end Augment

end NetworkFlow.CapacityScaling
