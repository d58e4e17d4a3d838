import Mathlib.Order.Bounds.Basic
import NetworkFlow.Proofs.Adjacency
import NetworkFlow.Proofs.BellmanFord.Walks
import NetworkFlow.Proofs.CapacityScaling.Dijkstra
import NetworkFlow.Proofs.ScalarOrder

/-!
# The search with a heap finds shortest distances

When a run ends, the nodes that are done, with their distances, are a region around the start
(`Region`): each distance is what a walk inside of the region costs, and a wide residual arc that
leaves a node of the region leads to a node of the region that is not farther away than along the
arc, or costs at least as much as the deficit at which the run has ended is away. So a walk from
the start either stays in the region, and the distances grow by no more than it costs, or has come
as far as that deficit when it leaves the region.

The search may end as soon as a deficit is taken out of the heap, before its residual arcs are
looked at, as nothing that is still to be found is nearer.

## Main results

* `walk_pathBack`: the way back is a walk of wide residual arcs whose cost is the distance.
* `Region.le_of_isWalk`: what a walk costs at least.
* `dijkstra_shortest`: a run ends, and what it finds.
-/

namespace NetworkFlow.CapacityScaling

open BellmanFord
open scoped ExactCosts

variable {n m : Nat}

/-- The residual arcs at their reduced costs. -/
def reducedArcs (p : Indexed n m Int) (st : State n m Int) : CostedArcs n (ResidualArc m) Int where
  tail := p.source
  head := p.target
  cost := p.reduced p.cost st.potential

/-- The residual arcs with room for `delta`. -/
def wideArcs (p : Indexed n m Int) (st : State n m Int) (delta : Int) : List (ResidualArc m) :=
  (ResidualArc.all m).filter (delta ≤ p.room st.flow ·)

/-- A walk over residual arcs with room for `delta`. -/
abbrev WideWalk (p : Indexed n m Int) (st : State n m Int) (delta : Int) (u v : Fin n)
    (walk : List (ResidualArc m)) : Prop :=
  IsWalk (reducedArcs p st) (wideArcs p st delta) u v walk

/-- The reduced costs of the walks from `s` to a node over residual arcs with room for `delta`. -/
def wideCosts (p : Indexed n m Int) (st : State n m Int) (s : Fin n) (delta : Int) (v : Fin n) :
    Set Int :=
  {c | ∃ walk, WideWalk p st delta s v walk ∧ costSum (reducedArcs p st) walk = c}

section Walks

variable {p : Indexed n m Int} {st : State n m Int} {s u v : Fin n} {delta : Int}

theorem mem_wideArcs {r : ResidualArc m} :
    r ∈ wideArcs p st delta ↔ delta ≤ p.room st.flow r := by
  simp [wideArcs, ResidualArc.mem_all]

/-- A walk over wide residual arcs has no negative cost. -/
theorem costSum_nonneg (hopt : WideOptimal p st delta) {walk : List (ResidualArc m)}
    (h : WideWalk p st delta u v walk) : 0 ≤ costSum (reducedArcs p st) walk := by
  apply List.sum_nonneg
  intro c hc
  obtain ⟨r, hr, rfl⟩ := List.mem_map.mp hc
  exact hopt r (mem_wideArcs.mp (h.mem r hr))

variable [ExactCosts] {pred : Table (Option (ResidualArc m)) n} {settled : List (Fin n × Int)}

/-- Following the residual arcs back along a chain gives, turned around, a walk from its start whose
cost is the distance. -/
theorem walk_pathBack (hopt : WideOptimal p st delta) (hchain : Chained p st s delta pred settled)
    (hstart : ∀ d, (s, d) ∈ settled → d = 0) {d : Int} (hv : (v, d) ∈ settled) {k : Nat}
    (hk : settled.length ≤ k) :
    Back (reducedArcs p st) pred v s (pathBack p pred s k v) ∧
      WideWalk p st delta s v (pathBack p pred s k v).reverse ∧
      costSum (reducedArcs p st) (pathBack p pred s k v).reverse = d := by
  induction settled generalizing v d k with
  | nil => cases hv
  | cons x settled ih =>
      obtain ⟨w, e⟩ := x
      obtain ⟨hhead, htail⟩ := hchain
      rw [List.length_cons] at hk
      have ih := fun {v d k} => ih (v := v) (d := d) (k := k) htail fun d hd =>
        hstart d (List.mem_cons_of_mem _ hd)
      rcases List.mem_cons.mp hv with heq | hmem
      · cases heq
        obtain ⟨k, rfl⟩ : ∃ i, k = i + 1 := ⟨k - 1, by omega⟩
        by_cases hs : v = s
        · subst hs
          simp only [pathBack, if_true]
          exact ⟨rfl, rfl, (hstart d hv).symm⟩
        · obtain ⟨r, du, hpred, rfl, hsource, hroom, hd⟩ := hhead.resolve_left hs
          obtain ⟨hback, hwalk, hcost⟩ := ih hsource (Nat.le_of_succ_le_succ hk)
          have hpath : pathBack p pred s (k + 1) (p.target r) =
              r :: pathBack p pred s k (p.source r) := by
            simp [pathBack, hs, hpred]
          rw [length_eq hopt hroom, scalar_add_eq] at hd
          rw [hpath, List.reverse_cons]
          refine ⟨⟨hpred, hback⟩, hwalk.append ⟨mem_wideArcs.mpr hroom, rfl, rfl⟩, ?_⟩
          rw [costSum_append, hcost, costSum_cons, costSum_nil, hd, add_zero]
          rfl
      · exact ih hmem (Nat.le_of_succ_le hk)

end Walks

/-! ## The region of the settled nodes -/

/-- The nodes that a run has settled, with their distances, when it ends at a deficit at some
distance or, without one, finds nothing more to look at. -/
structure Region (p : Indexed n m Int) (st : State n m Int) (s : Fin n) (delta : Int)
    (settled : List (Fin n × Int)) (end? : Option Int) : Prop where
  nodup : (settled.map (·.1)).Nodup
  start : (s, 0) ∈ settled
  attained : ∀ v d, (v, d) ∈ settled → d ∈ wideCosts p st s delta v
  le_end : ∀ last ∈ end?, ∀ v d, (v, d) ∈ settled → d ≤ last
  relaxed : ∀ r du, delta ≤ p.room st.flow r → (p.source r, du) ∈ settled →
    (∃ dv, (p.target r, dv) ∈ settled ∧ dv ≤ du + p.reduced p.cost st.potential r) ∨
      ∃ last ∈ end?, last ≤ du + p.reduced p.cost st.potential r

namespace Region

variable {p : Indexed n m Int} {st : State n m Int} {s u v : Fin n} {delta : Int}
  {settled : List (Fin n × Int)} {end? : Option Int}

/-- A walk that begins in the region stays in it, or has cost at least as much as the end is
away. -/
theorem le_of_isWalk (h : Region p st s delta settled end?) (hopt : WideOptimal p st delta)
    {du : Int} (hu : (u, du) ∈ settled) {walk : List (ResidualArc m)}
    (hwalk : WideWalk p st delta u v walk) :
    (∃ dv, (v, dv) ∈ settled ∧ dv ≤ du + costSum (reducedArcs p st) walk) ∨
      ∃ last ∈ end?, last ≤ du + costSum (reducedArcs p st) walk := by
  induction walk generalizing u du with
  | nil =>
      obtain rfl : u = v := hwalk
      exact Or.inl ⟨du, hu, by simp⟩
  | cons r walk ih =>
      obtain ⟨hr, rfl, hwalk⟩ := hwalk
      have hrest := costSum_nonneg hopt hwalk
      have hcost : (reducedArcs p st).cost r = p.reduced p.cost st.potential r := rfl
      rw [costSum_cons, hcost]
      rcases h.relaxed r du (mem_wideArcs.mp hr) hu with ⟨dv, hdv, hle⟩ | ⟨last, hlast, hle⟩
      · rcases ih hdv hwalk with ⟨dw, hdw, hle'⟩ | ⟨last, hlast, hle'⟩
        · exact Or.inl ⟨dw, hdw, by omega⟩
        · exact Or.inr ⟨last, hlast, by omega⟩
      · exact Or.inr ⟨last, hlast, by omega⟩

theorem eq_of_mem (h : Region p st s delta settled end?) {d e : Int} (hd : (v, d) ∈ settled)
    (he : (v, e) ∈ settled) : d = e :=
  congrArg Prod.snd (List.inj_on_of_nodup_map h.nodup hd he rfl)

/-- The distance of a settled node is that of a shortest walk. -/
theorem isLeast (h : Region p st s delta settled end?) (hopt : WideOptimal p st delta) {d : Int}
    (hv : (v, d) ∈ settled) : IsLeast (wideCosts p st s delta v) d := by
  refine ⟨h.attained v d hv, ?_⟩
  rintro c ⟨walk, hwalk, rfl⟩
  rcases h.le_of_isWalk hopt h.start hwalk with ⟨e, he, hle⟩ | ⟨last, hlast, hle⟩
  · rw [h.eq_of_mem hv he]
    omega
  · have := h.le_end last hlast v d hv
    omega

/-- A walk to any other node costs at least as much as the end is away. -/
theorem le_of_notMem (h : Region p st s delta settled end?) (hopt : WideOptimal p st delta)
    (hv : v ∉ settled.map (·.1)) {c : Int} (hc : c ∈ wideCosts p st s delta v) :
    ∃ last ∈ end?, last ≤ c := by
  obtain ⟨walk, hwalk, rfl⟩ := hc
  rcases h.le_of_isWalk hopt h.start hwalk with ⟨e, he, -⟩ | ⟨last, hlast, hle⟩
  · exact absurd (List.mem_map_of_mem (f := (·.1)) he) hv
  · exact ⟨last, hlast, by omega⟩

end Region

/-! ## The region at the end of a run -/

section Ends

variable [ExactCosts] {p : Indexed n m Int} {st : State n m Int} {s u : Fin n} {delta d : Int}
  {q : Search n m Int}

/-- A chain begins at the start. -/
theorem Chained.exists_start {pred : Table (Option (ResidualArc m)) n} {l : List (Fin n × Int)}
    (h : Chained p st s delta pred l) {v : Fin n} (hv : (v, d) ∈ l) : ∃ e, (s, e) ∈ l := by
  induction l generalizing v d with
  | nil => cases hv
  | cons x l ih =>
      obtain ⟨w, e⟩ := x
      obtain ⟨hhead, htail⟩ := h
      rcases hhead with rfl | ⟨r, du, -, -, hsource, -⟩
      · exact ⟨e, List.mem_cons_self⟩
      · obtain ⟨e', he'⟩ := ih htail hsource
        exact ⟨e', List.mem_cons_of_mem _ he'⟩

/-- A chain does not depend on how its start was reached. -/
theorem Chained.of_pred {pred pred' : Table (Option (ResidualArc m)) n} {l : List (Fin n × Int)}
    (h : Chained p st s delta pred l)
    (heq : ∀ v d, (v, d) ∈ l → v ≠ s → pred'[v] = pred[v]) : Chained p st s delta pred' l := by
  induction l with
  | nil => trivial
  | cons x l ih =>
      obtain ⟨v, d⟩ := x
      obtain ⟨hhead, htail⟩ := h
      refine ⟨?_, ih htail fun w e hw => heq w e (List.mem_cons_of_mem _ hw)⟩
      by_cases hv : v = s
      · exact Or.inl hv
      · rwa [heq v d List.mem_cons_self hv]

/-- The settled nodes when there is nothing more to look at. -/
theorem Search.Valid.region_of_none (h : q.Valid p st s delta) (hopt : WideOptimal p st delta)
    (hnearest : q.nearest = none) : Region p st s delta q.order none := by
  have hstart : ∀ e, (s, e) ∈ q.order → e = 0 := fun e he =>
    Option.some.inj ((h.dist_order s e he).symm.trans h.dist_start)
  have hall : ∀ (v : Fin n) e, q.dist[v] = some e → (v, e) ∈ q.order := by
    intro v e he
    obtain ⟨e', he'⟩ := (h.settled_iff v).mp (nearest_eq_none hnearest (by rw [he]; rfl))
    obtain rfl : e = e' := Option.some.inj (he.symm.trans (h.dist_order v e' he'))
    exact he'
  refine ⟨h.nodup, hall s 0 h.dist_start, fun v e hv => ?_, by simp, fun r du hroom hsource => ?_⟩
  · exact ⟨_, (walk_pathBack hopt h.chained hstart hv (Nat.le_refl _)).2⟩
  · obtain ⟨e, he, hle⟩ := h.relaxed _ du hsource r rfl hroom
    exact Or.inl ⟨e, hall _ e he, hle⟩

/-- The settled nodes when a deficit is the nearest node. -/
theorem Search.Valid.region_of_deficit (h : q.Valid p st s delta) (hopt : WideOptimal p st delta)
    (hnearest : q.nearest = some (u, d)) (hne : u ≠ s) (hdeficit : st.excess[u] ≤ -delta) :
    Region p st s delta (q.settle u d).order (some d) := by
  have hroute := h.route hopt hnearest hne hdeficit
  have hchain := h.chained_settle hnearest
  have hstart : ∀ e, (s, e) ∈ (q.settle u d).order → e = 0 := fun e he =>
    Option.some.inj ((h.dist_settle hnearest he).symm.trans h.dist_start)
  obtain ⟨e, he⟩ := hchain.exists_start (mem_order_settle.mpr (Or.inl ⟨rfl, rfl⟩))
  refine ⟨hroute.settled_nodup, hstart e he ▸ he, fun v e hv => ?_, fun last hlast v e hv => ?_,
    fun r du hroom hsource => ?_⟩
  · exact ⟨_, (walk_pathBack hopt hchain hstart hv (Nat.le_refl _)).2⟩
  · cases hlast
    exact hroute.le_dist v e hv
  · exact (hroute.relaxed r du hroom hsource).imp_right fun hle => ⟨d, rfl, hle⟩

end Ends

/-! ## What a run finds -/

/-- What the buffers say when a run has ended: a deficit to which walks lead and to no nearer one,
or that they lead to none. -/
structure Dijkstra.Finds [ExactCosts] (p : Indexed n m Int) (st : State n m Int) (s : Fin n)
    (delta : Int) (x : Dijkstra n m Int) (t : Option (Fin n)) : Prop where
  deficit : ∀ u ∈ t, u ≠ s ∧ st.excess[u] ≤ -delta ∧
    IsLeast (wideCosts p st s delta u) x.dist[u] ∧
    ∀ v : Fin n, v ≠ s → st.excess[v] ≤ -delta → ∀ c ∈ wideCosts p st s delta v, x.dist[u] ≤ c
  none_iff : t = none ↔
    ∀ v : Fin n, v ≠ s → st.excess[v] ≤ -delta → wideCosts p st s delta v = ∅
  settled : ∀ v ∈ x.settled, IsLeast (wideCosts p st s delta v) x.dist[v]
  unsettled : ∀ u ∈ t, ∀ v ∉ x.settled, ∀ c ∈ wideCosts p st s delta v, x.dist[u] ≤ c
  /-- Following the last arcs back from the deficit one comes to the start. -/
  way : ∀ u ∈ t, Back (reducedArcs p st) x.pred u s (pathBack p x.pred s n u) ∧
    WideWalk p st delta s u (pathBack p x.pred s n u).reverse ∧
    costSum (reducedArcs p st) (pathBack p x.pred s n u).reverse = x.dist[u]
  /-- What is read off the buffers is the way that capacity scaling uses. -/
  route : nearestDeficit p st s delta = t.map (x.route p s)

namespace Dijkstra

variable [ExactCosts] {p : Indexed n m Int} {st : State n m Int} {s u : Fin n} {delta d : Int}
  {q : Search n m Int} {x : Dijkstra n m Int} {settled : List (Fin n × Int)} {end? : Option Int}

/-- The nodes that are done, with their distances in the buffers. -/
theorem Follows.mem_settled (h : x.Follows s q)
    (hdist : ∀ v d, (v, d) ∈ q.order → q.dist[v] = some d) {v : Fin n} :
    v ∈ x.settled ↔ (v, x.dist[v]) ∈ q.order := by
  rw [h.settled_eq, List.mem_map]
  constructor
  · rintro ⟨⟨w, d⟩, hmem, rfl⟩
    rwa [h.dist_eq w d (hdist w d hmem)]
  · exact fun hmem => ⟨_, hmem, rfl⟩

/-- The way back from a settled node leads to the start, and costs as much as its distance. -/
theorem Follows.way (h : x.Follows s q) (hopt : WideOptimal p st delta)
    (hregion : Region p st s delta q.order end?) (hchain : Chained p st s delta q.pred q.order)
    (hdist : ∀ v d, (v, d) ∈ q.order → q.dist[v] = some d) {v : Fin n} (hv : v ∈ x.settled) :
    Back (reducedArcs p st) x.pred v s (pathBack p x.pred s n v) ∧
      WideWalk p st delta s v (pathBack p x.pred s n v).reverse ∧
      costSum (reducedArcs p st) (pathBack p x.pred s n v).reverse = x.dist[v] := by
  have hlength : q.order.length ≤ n := by simpa using hregion.nodup.length_le_card
  have hpred : Chained p st s delta x.pred q.order := hchain.of_pred fun w e hw hne =>
    h.pred_eq w hne (by rw [hdist w e hw]; rfl)
  exact walk_pathBack hopt hpred (fun e he => hregion.eq_of_mem he hregion.start)
    ((h.mem_settled hdist).mp hv) hlength

/-- What is found when there is nothing more to look at. -/
theorem Follows.finds_none (h : x.Follows s q) (hq : q.Valid p st s delta)
    (hopt : WideOptimal p st delta) (hnearest : q.nearest = none)
    (hroute : nearestDeficit p st s delta = none) : x.Finds p st s delta none := by
  have hregion := hq.region_of_none hopt hnearest
  have hmem := fun {v} => h.mem_settled (v := v) hq.dist_order
  have hunreached : ∀ v : Fin n, v ≠ s → st.excess[v] ≤ -delta →
      wideCosts p st s delta v = ∅ := by
    intro v hne hdeficit
    refine Set.eq_empty_of_forall_notMem fun c hc => ?_
    by_cases hv : v ∈ q.order.map (·.1)
    · obtain ⟨⟨v, e⟩, he, rfl⟩ := List.mem_map.mp hv
      exact absurd hdeficit (not_le.mpr (hq.sated v e he hne))
    · obtain ⟨last, hlast, -⟩ := hregion.le_of_notMem hopt hv hc
      cases hlast
  exact
    { deficit := by simp
      none_iff := ⟨fun _ => hunreached, fun _ => rfl⟩
      settled := fun v hv => hregion.isLeast hopt (hmem.mp hv)
      unsettled := by simp
      way := by simp
      route := hroute }

/-- What is found when a deficit is the nearest node. -/
theorem Follows.finds_some (h : x.Follows s (q.settle u d)) (hq : q.Valid p st s delta)
    (hopt : WideOptimal p st delta) (hnearest : q.nearest = some (u, d)) (hne : u ≠ s)
    (hdeficit : st.excess[u] ≤ -delta)
    (hroute : nearestDeficit p st s delta = some (x.route p s u)) :
    x.Finds p st s delta (some u) := by
  have hregion := hq.region_of_deficit hopt hnearest hne hdeficit
  have hdist : ∀ v e, (v, e) ∈ (q.settle u d).order → (q.settle u d).dist[v] = some e :=
    fun v e hv => hq.dist_settle hnearest hv
  have hmem := fun {v} => h.mem_settled (v := v) hdist
  have hu : (u, d) ∈ (q.settle u d).order := mem_order_settle.mpr (Or.inl ⟨rfl, rfl⟩)
  obtain rfl : x.dist[u] = d := h.dist_eq u d (hdist u d hu)
  have hsettled : u ∈ x.settled := hmem.mpr hu
  have hleast := hregion.isLeast hopt hu
  have hbeyond : ∀ v ∉ x.settled, ∀ c ∈ wideCosts p st s delta v, x.dist[u] ≤ c := by
    intro v hv c hc
    rw [h.settled_eq] at hv
    obtain ⟨last, hlast, hle⟩ := hregion.le_of_notMem hopt hv hc
    cases hlast
    exact hle
  have hnearer : ∀ v : Fin n, v ≠ s → st.excess[v] ≤ -delta →
      ∀ c ∈ wideCosts p st s delta v, x.dist[u] ≤ c := by
    intro v hvs hdeficit' c hc
    by_cases hv : v ∈ x.settled
    · rcases mem_order_settle.mp (hmem.mp hv) with ⟨rfl, -⟩ | hv
      · exact hleast.2 hc
      · exact absurd hdeficit' (not_le.mpr (hq.sated v _ hv hvs))
    · exact hbeyond v hv c hc
  constructor
  case deficit =>
    rintro _ ⟨⟩
    exact ⟨hne, hdeficit, hleast, hnearer⟩
  case none_iff =>
    refine ⟨by simp, fun hempty => ?_⟩
    have hreached := hleast.1
    rw [hempty u hne hdeficit] at hreached
    cases hreached
  case settled => exact fun v hv => hregion.isLeast hopt (hmem.mp hv)
  case unsettled =>
    rintro _ ⟨⟩
    exact hbeyond
  case way =>
    rintro _ ⟨⟩
    exact h.way hopt hregion (hq.chained_settle hnearest) hdist hsettled
  case route => exact hroute

/-- What a run finds when it ends. -/
theorem Used.finds (h : x.Used) (hrows : p.rows = p.toNetwork.rows) (hopt : WideOptimal p st delta)
    {fuel : Nat} {x' : Dijkstra n m Int} {t : Option (Fin n)}
    (hrun : x.run p st s delta fuel = .ok (x', t)) : x'.Finds p st s delta t := by
  have hroute := run_eq hrows h.clean hrun
  have hstep : ∀ (q : Search n m Int) u d, q.Valid p st s delta → q.nearest = some (u, d) →
      (u ≠ s → -delta < st.excess[u]) →
      (p.rows[u].toList.foldl (look p st delta d) (q.settle u d)).Valid p st s delta :=
    fun q u d hq hnearest hsated => hq.step hopt hnearest hsated
      (fun _ => Network.mem_row hrows) (looked_foldl p st delta d _ _) (lowered_foldl hopt d _ _)
  rcases run_spec (Search.Valid.start s) hstep h.clean hrun with
    ⟨rfl, q, hq, hnearest, hfollows⟩ | ⟨q, u, d, rfl, hq, hnearest, hne, hdeficit, hfollows⟩
  · exact hfollows.finds_none hq hopt hnearest hroute
  · exact hfollows.finds_some hq hopt hnearest hne hdeficit hroute

end Dijkstra

/-- In every residual state in which no residual arc with room for `delta` has a negative reduced
cost, from every start, and with buffers that any earlier runs have left, the search with a heap
ends, and finds a nearest deficit and the distances on the way to it. -/
theorem dijkstra_shortest [ExactCosts] (p : Problem n m Int) (st : State n m Int) (s : Fin n)
    (delta : Int) (x : Dijkstra n m Int) (hused : x.Used)
    (hopt : WideOptimal (indexed p) st delta) :
    ∃ x' t, (∀ fuel, 2 * m + 2 ≤ fuel → x.run (indexed p) st s delta fuel = .ok (x', t)) ∧
      x'.Finds (indexed p) st s delta t := by
  have hsize : ∑ v : Fin n, (indexed p).rows[v].size = 2 * m := p.toNetwork.sum_size_rows
  have hends : x.run (indexed p) st s delta (2 * m + 2) ≠ .error .outOfFuel :=
    Dijkstra.run_ne_outOfFuel (indexed p) st s delta x (by rw [hsize])
  have hfits : x.run (indexed p) st s delta (2 * m + 2) ≠ .error .overflow :=
    iterate_ne_overflow (P := fun _ => True) (fun _ _ => by simp) (fun _ _ _ _ => trivial) trivial
  obtain ⟨⟨x', t⟩, hrun⟩ := exists_ok hends hfits
  exact ⟨x', t, fun fuel hfuel => (Dijkstra.run_mono hfuel).eq_ok hrun,
    hused.finds rfl hopt hrun⟩

/-- Three nodes in a row, and an arc from the first one to the last one that costs more than the way
over the second one. -/
def detour : Problem 3 3 Int where
  tail := .ofFn fun a => ⟨a / 2, by omega⟩
  head := .ofFn fun a => ⟨min (a + 1) 2, by omega⟩
  cap := .const 3 1
  cost := ⟨#v[1, 5, 1]⟩
  supply := ⟨#v[1, 0, -1]⟩
  lower := .const 3 0
  uncapped := .const 3 false
  tolerance := 0
  unbounded := false

/-- Nothing flows in `detour`. -/
def detourState (excess : Table Int 3) : State 3 3 Int where
  flow := .const 3 0
  potential := .const 3 0
  excess := excess

/-- A first run over `detour` finds no deficit and leaves all nodes marked. A second one on the same
buffers reaches the last node twice, and ends there while an entry of it still waits. -/
theorem dijkstra_shortest_detour :
    letI := ExactCosts.ofWidth .bits128
    ∃ x x' : Dijkstra 3 3 Int,
      (Dijkstra.new 3 3 Int).run (indexed detour) (detourState (.const 3 0)) 0 1 8 =
        .ok (x, none) ∧
      x.touched = [2, 1, 0] ∧
      x.run (indexed detour) (detourState detour.supply) 0 1 8 = .ok (x', some 2) ∧
      x'.heap.map Entry.dist = [5] ∧
      x'.Finds (indexed detour) (detourState detour.supply) 0 1 (some 2) := by
  have hruns :
      letI := ExactCosts.ofWidth .bits128
      ((Dijkstra.new 3 3 Int).run (indexed detour) (detourState (.const 3 0)) 0 1 8).bind
        (fun first => (first.1.run (indexed detour) (detourState detour.supply) 0 1 8).map
          fun second => (first.2, first.1.touched, second.2, second.1.heap.map Entry.dist)) =
        .ok (none, [2, 1, 0], some 2, [5]) := by
    decide +kernel
  let _ := ExactCosts.ofWidth .bits128
  obtain ⟨⟨x, t⟩, hfirst, hsecond⟩ := bind_eq_ok.mp hruns
  obtain ⟨⟨x', t'⟩, hsecond, heq⟩ := map_eq_ok.mp hsecond
  simp only [Prod.mk.injEq] at heq
  obtain ⟨rfl, htouched, rfl, hheap⟩ := heq
  have hopt : WideOptimal (indexed detour) (detourState detour.supply) 1 := by
    rintro ⟨a, backward⟩
    cases backward <;> revert a <;> decide +kernel
  obtain ⟨x'', t'', hrun, hfinds⟩ :=
    dijkstra_shortest detour (detourState detour.supply) 0 1 x (.run .new hfirst) hopt
  obtain ⟨rfl, rfl⟩ : x' = x'' ∧ some 2 = t'' := by
    simpa using hsecond.symm.trans (hrun 8 (by decide))
  exact ⟨x, x', hfirst, htouched, hsecond, hheap, hfinds⟩

end NetworkFlow.CapacityScaling
