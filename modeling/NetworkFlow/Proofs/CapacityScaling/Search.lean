import NetworkFlow.CapacityScaling.Search
import NetworkFlow.Proofs.Discharge
import NetworkFlow.Proofs.Exact
import NetworkFlow.Proofs.Iteration

/-!
# The search for the nearest deficit

Whatever the costs are computed in, the search follows wide residual arcs only. Its
invariant (`Search.Linked`) says of the settled nodes that their wide residual arcs
have been looked at, and of the nodes reached over which arc they were.

With exact costs, and as long as no wide residual arc has a negative reduced cost, the
search settles nodes in the order of their distances, and the last arc of every path
found is tight (`Search.Valid`).

## Main results

* `usable_route`, `exists_sealed`: in any arithmetic, a way that the search returns leads
  to a deficit over distinct wide residual arcs; if it returns none, no wide residual
  arc leaves the nodes that it has settled, and none of them has a deficit.
* `valid_route`: the arcs of the way are tight, and its distances allow the potentials to
  be shifted.
-/

namespace NetworkFlow.CapacityScaling

open scoped ExactCosts

variable {n m : Nat}

section Links

variable {α : Type} [Scalar α]

/-- A list of settled nodes, the last one first: each was reached from one settled before,
over a wide residual arc, by whose length the distance grew. -/
def Chained (p : Indexed n m α) (st : State n m α) (s : Fin n) (delta : Int)
    (pred : Table (Option (ResidualArc m)) n) : List (Fin n × α) → Prop
  | [] => True
  | (v, d) :: rest =>
      (v = s ∨ ∃ r du, pred[v] = some r ∧ p.target r = v ∧ (p.source r, du) ∈ rest ∧
        delta ≤ p.room st.flow r ∧ d = du + length p st r) ∧
      Chained p st s delta pred rest

/-- What a search knows of the arcs over which it reached the nodes is right. -/
structure Search.Linked (p : Indexed n m α) (st : State n m α) (s : Fin n) (delta : Int)
    (q : Search n m α) : Prop where
  settled_iff : ∀ v : Fin n, q.settled[v] = true ↔ ∃ d, (v, d) ∈ q.order
  nodup : (q.order.map (·.1)).Nodup
  dist_order : ∀ v d, (v, d) ∈ q.order → q.dist[v] = some d
  start_reached : q.dist[s].isSome
  reached : ∀ (v : Fin n) d, q.dist[v] = some d → v = s ∨
    ∃ r du, q.pred[v] = some r ∧ p.target r = v ∧ (p.source r, du) ∈ q.order ∧
      delta ≤ p.room st.flow r ∧ d = du + length p st r
  chained : Chained p st s delta q.pred q.order
  scanned : ∀ u du, (u, du) ∈ q.order → ∀ r, p.source r = u → delta ≤ p.room st.flow r →
    q.dist[p.target r].isSome
  sated : ∀ v d, (v, d) ∈ q.order → v ≠ s → -delta < st.excess[v]

/-- A way to a deficit over distinct wide residual arcs. -/
structure Route.Usable (p : Indexed n m α) (st : State n m α) (s : Fin n) (delta : Int)
    (way : Route n m α) : Prop where
  target_ne : way.target ≠ s
  deficit : st.excess[way.target] ≤ -delta
  leads : p.Leads way.path s way.target
  nodup : (way.path.map (·.arc)).Nodup
  wide : ∀ r ∈ way.path, delta ≤ p.room st.flow r

/-- A set of nodes around `s` that no wide residual arc leaves and in which no other node has a
large deficit. -/
structure Sealed (p : Indexed n m α) (st : State n m α) (s : Fin n) (delta : Int)
    (nodes : Finset (Fin n)) : Prop where
  self_mem : s ∈ nodes
  closed : ∀ r, delta ≤ p.room st.flow r → p.source r ∈ nodes → p.target r ∈ nodes
  sated : ∀ v ∈ nodes, v ≠ s → -delta < st.excess[v]

omit [Scalar α] in
/-- No usable way leads out of a sealed set. -/
theorem Sealed.not_usable {p : Indexed n m α} {st : State n m α} {s : Fin n} {delta : Int}
    {nodes : Finset (Fin n)} (h : Sealed p st s delta nodes) (way : Route n m α) :
    ¬ way.Usable p st s delta := by
  intro hway
  have htarget := hway.leads.mem h.self_mem fun r hr => h.closed r (hway.wide r hr)
  have hsated := h.sated _ htarget hway.target_ne
  have hdeficit := hway.deficit
  omega

/-- The nearer one of the nearest node so far and one more node. -/
def nearer (q : Search n m α) (best : Option (Fin n × α)) (v : Fin n) :
    Option (Fin n × α) :=
  match q.settled[v], q.dist[v], best with
  | false, some d, none => some (v, d)
  | false, some d, some (u, b) => if d < b then some (v, d) else some (u, b)
  | _, _, _ => best

/-- A node as the nearest one, if it is reached and not settled. -/
private def contender (q : Search n m α) (v : Fin n) : Option (Fin n × α) :=
  if q.settled[v] then none else q.dist[v].map (v, ·)

omit [Scalar α] in
private theorem contender_eq_some {q : Search n m α} {v u : Fin n} {d : α} :
    contender q v = some (u, d) ↔ v = u ∧ q.settled[v] = false ∧ q.dist[v] = some d := by
  unfold contender
  cases q.settled[v] <;> cases q.dist[v] <;> simp [and_comm]

/-- There is a first node if there is a second one. -/
private def NoLater (x y : Option (Fin n × α)) : Prop := y.isSome → x.isSome

private theorem nearer_eq (q : Search n m α) (best : Option (Fin n × α)) (v : Fin n) :
    (nearer q best v = best ∨ nearer q best v = contender q v) ∧
      NoLater (nearer q best v) best ∧ NoLater (nearer q best v) (contender q v) := by
  unfold nearer contender NoLater
  cases q.settled[v] <;> cases hd : q.dist[v] <;> rcases best with _ | ⟨u, b⟩ <;> try simp
  rename_i d
  by_cases hlt : d < b <;> simp [hlt]

private theorem nearest_eq (q : Search n m α) :
    (q.nearest = none ∨ ∃ v, q.nearest = contender q v) ∧
      ∀ v, NoLater q.nearest (contender q v) := by
  obtain ⟨horigin, -, hfound⟩ := foldl_best (fun _ h => h) (fun _ _ _ h h' hz => h (h' hz))
    (nearer_eq q) (List.finRange n) none
  exact ⟨horigin.imp_right fun ⟨v, _, h⟩ => ⟨v, h⟩, fun v => hfound v (List.mem_finRange v)⟩

variable {p : Indexed n m α} {st : State n m α} {s : Fin n} {delta : Int} {q : Search n m α}

/-- The nearest node is reached and not settled. -/
theorem unsettled_of_nearest {u : Fin n} {d : α} (h : q.nearest = some (u, d)) :
    q.settled[u] = false ∧ q.dist[u] = some d := by
  obtain ⟨v, hv⟩ := (nearest_eq q).1.resolve_left (by simp [h])
  rw [h] at hv
  obtain ⟨rfl, hs, hd⟩ := contender_eq_some.mp hv.symm
  exact ⟨hs, hd⟩

/-- If there is no nearest node, every node reached is settled. -/
theorem nearest_eq_none (h : q.nearest = none) {v : Fin n} (hv : q.dist[v].isSome) :
    q.settled[v] = true := by
  by_contra hs
  obtain ⟨d, hd⟩ := Option.isSome_iff_exists.mp hv
  have hcontender : contender q v = some (v, d) :=
    contender_eq_some.mpr ⟨rfl, by simpa using hs, hd⟩
  have := (nearest_eq q).2 v (by simp [hcontender])
  simp [h] at this

/-- What looking along residual arcs from a node at distance `d` leaves of a search. -/
structure Looked (p : Indexed n m α) (st : State n m α) (delta : Int) (d : α)
    (rs : List (ResidualArc m)) (q q' : Search n m α) : Prop where
  settled_eq : q'.settled = q.settled
  order_eq : q'.order = q.order
  kept : ∀ v : Fin n, q.settled[v] = true → q'.dist[v] = q.dist[v] ∧ q'.pred[v] = q.pred[v]
  origin : ∀ (v : Fin n) x, q'.dist[v] = some x →
    (q.dist[v] = some x ∧ q'.pred[v] = q.pred[v]) ∨
      ∃ r ∈ rs, q'.pred[v] = some r ∧ p.target r = v ∧ delta ≤ p.room st.flow r ∧
        x = d + length p st r
  stays : ∀ v : Fin n, q.dist[v].isSome → q'.dist[v].isSome
  covered : ∀ r ∈ rs, delta ≤ p.room st.flow r → q.settled[p.target r] = false →
    q'.dist[p.target r].isSome

theorem Looked.refl (q : Search n m α) (d : α) : Looked p st delta d [] q q where
  settled_eq := rfl
  order_eq := rfl
  kept _ _ := ⟨rfl, rfl⟩
  origin _ _ h := Or.inl ⟨h, rfl⟩
  stays _ h := h
  covered _ h := by simp at h

theorem Looked.cons {q₁ q₂ q₃ : Search n m α} {d : α} {r : ResidualArc m}
    {rs : List (ResidualArc m)} (h : Looked p st delta d [r] q₁ q₂)
    (h' : Looked p st delta d rs q₂ q₃) : Looked p st delta d (r :: rs) q₁ q₃ where
  settled_eq := h'.settled_eq.trans h.settled_eq
  order_eq := h'.order_eq.trans h.order_eq
  kept v hv := by
    obtain ⟨hd, hp⟩ := h.kept v hv
    obtain ⟨hd', hp'⟩ := h'.kept v (by rwa [h.settled_eq])
    exact ⟨hd'.trans hd, hp'.trans hp⟩
  origin v x hx := by
    rcases h'.origin v x hx with ⟨hd, hpred⟩ | ⟨r', hr', hrest⟩
    · rcases h.origin v x hd with ⟨hd, hpred'⟩ | ⟨r', hr', hpred', hrest⟩
      · exact Or.inl ⟨hd, hpred.trans hpred'⟩
      · obtain rfl := List.mem_singleton.mp hr'
        exact Or.inr ⟨r', by simp, hpred.trans hpred', hrest⟩
    · exact Or.inr ⟨r', by simp [hr'], hrest⟩
  stays v hv := h'.stays v (h.stays v hv)
  covered r' hr' hroom hs := by
    rcases List.mem_cons.mp hr' with rfl | hr'
    · exact h'.stays _ (h.covered r' (by simp) hroom hs)
    · exact h'.covered r' hr' hroom (by rwa [h.settled_eq])

/-- Looking along an arc leaves the search as it is, or reaches the other end of the arc on a
better path. -/
theorem look_eq (p : Indexed n m α) (st : State n m α) (delta : Int) (d : α)
    (q : Search n m α) (r : ResidualArc m) :
    (look p st delta d q r = q ∧ (delta ≤ p.room st.flow r → q.settled[p.target r] = false →
        better (d + length p st r) q.dist[p.target r] = false)) ∨
      (delta ≤ p.room st.flow r ∧ q.settled[p.target r] = false ∧
        better (d + length p st r) q.dist[p.target r] = true ∧
        look p st delta d q r = { q with
          dist := q.dist.set (p.target r) (some (d + length p st r))
          pred := q.pred.set (p.target r) (some r) }) := by
  unfold look
  simp only
  split
  · rename_i hskip
    refine Or.inl ⟨rfl, fun hroom hs => ?_⟩
    rcases hskip with hskip | hskip
    · omega
    · simp [hs] at hskip
  · rename_i hlook
    rw [not_or, not_lt, Bool.not_eq_true] at hlook
    split
    · exact Or.inr ⟨hlook.1, hlook.2, ‹_›, rfl⟩
    · exact Or.inl ⟨rfl, fun _ _ => by rwa [← Bool.not_eq_true]⟩

theorem looked_look (p : Indexed n m α) (st : State n m α) (delta : Int) (d : α)
    (q : Search n m α) (r : ResidualArc m) :
    Looked p st delta d [r] q (look p st delta d q r) := by
  rcases look_eq p st delta d q r with ⟨heq, hworse⟩ | ⟨hroom, hs, -, heq⟩
  · rw [heq]
    refine ⟨rfl, rfl, fun _ _ => ⟨rfl, rfl⟩, fun _ _ h => Or.inl ⟨h, rfl⟩, fun _ h => h,
      fun r' hr' hroom hs => ?_⟩
    obtain rfl := List.mem_singleton.mp hr'
    cases hd : q.dist[p.target r'] with
    | none => simp [hd, better] at hworse; simp [hworse hroom] at hs
    | some x => rfl
  · rw [heq]
    have hset : ∀ v : Fin n, p.target r ≠ v →
        (q.dist.set (p.target r) (some (d + length p st r)))[v] = q.dist[v] ∧
        (q.pred.set (p.target r) (some r))[v] = q.pred[v] := fun v hv =>
      ⟨Table.getElem_set_of_ne _ _ hv, Table.getElem_set_of_ne _ _ hv⟩
    refine ⟨rfl, rfl, fun v hv => hset v ?_, fun v x hx => ?_, fun v hv => ?_,
      fun r' hr' _ _ => ?_⟩
    · rintro rfl
      simp [hs] at hv
    · by_cases hv : p.target r = v
      · subst hv
        simp only [Table.getElem_set_self, Option.some.injEq] at hx ⊢
        exact Or.inr ⟨r, by simp, rfl, rfl, hroom, hx.symm⟩
      · exact Or.inl ⟨(hset v hv).1.symm.trans hx, (hset v hv).2⟩
    · by_cases hv' : p.target r = v
      · simp [hv']
      · simpa [hset v hv'] using hv
    · obtain rfl := List.mem_singleton.mp hr'
      simp

theorem looked_foldl (p : Indexed n m α) (st : State n m α) (delta : Int) (d : α)
    (rs : List (ResidualArc m)) (q : Search n m α) :
    Looked p st delta d rs q (rs.foldl (look p st delta d) q) := by
  induction rs generalizing q with
  | nil => exact Looked.refl q d
  | cons r rs ih => exact (looked_look p st delta d q r).cons (ih _)

/-- The search with one more node settled. -/
def Search.settle (q : Search n m α) (u : Fin n) (d : α) : Search n m α :=
  { q with settled := q.settled.set u true, order := (u, d) :: q.order }

/-- A chain depends only on how its own nodes were reached. -/
theorem Chained.congr {pred pred' : Table (Option (ResidualArc m)) n}
    {l : List (Fin n × α)} (h : Chained p st s delta pred l)
    (heq : ∀ v d, (v, d) ∈ l → pred'[v] = pred[v]) : Chained p st s delta pred' l := by
  induction l with
  | nil => trivial
  | cons x l ih =>
      obtain ⟨v, d⟩ := x
      obtain ⟨hhead, htail⟩ := h
      refine ⟨?_, ih htail fun w e hw => heq w e (List.mem_cons_of_mem _ hw)⟩
      rwa [heq v d List.mem_cons_self]

theorem Search.Linked.start (s : Fin n) :
    (Search.start s : Search n m α).Linked p st s delta where
  settled_iff v := by simp [Search.start]
  nodup := by simp [Search.start]
  dist_order v d h := by simp [Search.start] at h
  start_reached := by simp [Search.start]
  reached v d h := by
    simp only [Search.start, Table.getElem_set, Table.getElem_const] at h
    split at h
    · rename_i hv
      exact Or.inl hv.symm
    · cases h
  chained := trivial
  scanned u du h := by simp [Search.start] at h
  sated v d h := by simp [Search.start] at h

section Settle

variable {u : Fin n} {d : α}

omit [Scalar α] in
theorem settled_settle (v : Fin n) :
    (q.settle u d).settled[v] = true ↔ v = u ∨ q.settled[v] = true := by
  rw [Search.settle, Table.getElem_set]
  split
  · rename_i hv
    simp [hv]
  · rename_i hv
    simp [Ne.symm hv]

omit [Scalar α] in
theorem mem_order_settle {v : Fin n} {e : α} :
    (v, e) ∈ (q.settle u d).order ↔ (v = u ∧ e = d) ∨ (v, e) ∈ q.order := by
  rw [Search.settle, List.mem_cons, Prod.mk.injEq]

theorem Search.Linked.settled_iff_settle (h : q.Linked p st s delta) (v : Fin n) :
    (q.settle u d).settled[v] = true ↔ ∃ e, (v, e) ∈ (q.settle u d).order := by
  rw [settled_settle, h.settled_iff]
  constructor
  · rintro (rfl | ⟨e, he⟩)
    · exact ⟨d, mem_order_settle.mpr (Or.inl ⟨rfl, rfl⟩)⟩
    · exact ⟨e, mem_order_settle.mpr (Or.inr he)⟩
  · rintro ⟨e, he⟩
    rcases mem_order_settle.mp he with ⟨rfl, -⟩ | he
    · exact Or.inl rfl
    · exact Or.inr ⟨e, he⟩

theorem Search.Linked.nodup_settle (h : q.Linked p st s delta)
    (hnearest : q.nearest = some (u, d)) : ((q.settle u d).order.map (·.1)).Nodup := by
  obtain ⟨hu, -⟩ := unsettled_of_nearest hnearest
  show (((u, d) :: q.order).map (·.1)).Nodup
  rw [List.map_cons, List.nodup_cons]
  refine ⟨fun hmem => ?_, h.nodup⟩
  obtain ⟨⟨v, e⟩, hv, rfl⟩ := List.mem_map.mp hmem
  have := (h.settled_iff v).mpr ⟨e, hv⟩
  simp [hu] at this

theorem Search.Linked.dist_settle (h : q.Linked p st s delta)
    (hnearest : q.nearest = some (u, d)) {v : Fin n} {e : α}
    (hv : (v, e) ∈ (q.settle u d).order) : q.dist[v] = some e := by
  rcases mem_order_settle.mp hv with ⟨rfl, rfl⟩ | hv
  · exact (unsettled_of_nearest hnearest).2
  · exact h.dist_order v e hv

theorem Search.Linked.chained_settle (h : q.Linked p st s delta)
    (hnearest : q.nearest = some (u, d)) :
    Chained p st s delta q.pred (q.settle u d).order :=
  ⟨h.reached u d (unsettled_of_nearest hnearest).2, h.chained⟩

end Settle

section Step

variable {u : Fin n} {d : α} {rs : List (ResidualArc m)} {q' : Search n m α}

/-- Settling the nearest node and looking along the residual arcs that leave it keeps what the
search knows. -/
theorem Search.Linked.step (h : q.Linked p st s delta) (hnearest : q.nearest = some (u, d))
    (hsated : u ≠ s → -delta < st.excess[u]) (hrs : ∀ r, r ∈ rs ↔ p.source r = u)
    (hlook : Looked p st delta d rs (q.settle u d) q') : q'.Linked p st s delta := by
  have hsettled := h.settled_iff_settle (u := u) (d := d)
  have hkept : ∀ v e, (v, e) ∈ (q.settle u d).order →
      q'.dist[v] = some e ∧ q'.pred[v] = q.pred[v] := by
    intro v e hv
    obtain ⟨hd, hpred⟩ := hlook.kept v ((hsettled v).mpr ⟨e, hv⟩)
    exact ⟨hd.trans (h.dist_settle hnearest hv), hpred⟩
  refine
    { settled_iff := fun v => ?_
      nodup := ?_
      dist_order := fun v e hv => ?_
      start_reached := hlook.stays s h.start_reached
      reached := fun v x hx => ?_
      chained := ?_
      scanned := fun w dw hw r hr hroom => ?_
      sated := fun v e hv hne => ?_ } <;> rw [hlook.order_eq] at *
  · rw [hlook.settled_eq]
    exact hsettled v
  · exact h.nodup_settle hnearest
  · exact (hkept v e hv).1
  · rcases hlook.origin v x hx with ⟨hold, hpred⟩ | ⟨r, hr, hpred, htarget, hroom, hx⟩
    · apply (h.reached v x hold).imp_right
      rintro ⟨r, du, hr, htarget, hmem, hrest⟩
      exact ⟨r, du, hpred.trans hr, htarget, mem_order_settle.mpr (Or.inr hmem), hrest⟩
    · have hmem : (p.source r, d) ∈ (q.settle u d).order :=
        mem_order_settle.mpr (Or.inl ⟨(hrs r).mp hr, rfl⟩)
      exact Or.inr ⟨r, d, hpred, htarget, hmem, hroom, hx⟩
  · exact (h.chained_settle hnearest).congr fun v e hv => (hkept v e hv).2
  · rcases mem_order_settle.mp hw with ⟨rfl, rfl⟩ | hw
    · cases hs : (q.settle w dw).settled[p.target r] with
      | false => exact hlook.covered r ((hrs r).mpr hr) hroom hs
      | true =>
          obtain ⟨e, he⟩ := (hsettled _).mp hs
          simp [(hkept _ e he).1]
    · exact hlook.stays _ (h.scanned w dw hw r hr hroom)
  · rcases mem_order_settle.mp hv with ⟨rfl, -⟩ | hv
    · exact hsated hne
    · exact h.sated v e hv hne

end Step

omit [Scalar α] in
/-- An arc to a new node is not among the arcs between the nodes before. -/
theorem arc_notMem {l : List (Fin n × α)} {path : List (ResidualArc m)} {r : ResidualArc m}
    (hnew : p.target r ∉ l.map (·.1))
    (hpath : ∀ r' ∈ path, (∃ d, (p.source r', d) ∈ l) ∧ ∃ d, (p.target r', d) ∈ l) :
    r.arc ∉ path.map (·.arc) := by
  intro hmem
  obtain ⟨r', hr', harc⟩ := List.mem_map.mp hmem
  obtain ⟨⟨du, hsource⟩, ⟨dv, htarget⟩⟩ := hpath r' hr'
  rcases ResidualArc.eq_or_eq_reverse harc with rfl | rfl
  · exact hnew (List.mem_map_of_mem (f := (·.1)) htarget)
  · rw [p.target_reverse] at hnew
    exact hnew (List.mem_map_of_mem (f := (·.1)) hsource)

/-- A way from `s` to a node over distinct wide arcs between settled nodes, by whose lengths the
distances grow. -/
structure Traced (p : Indexed n m α) (st : State n m α) (s : Fin n) (delta : Int)
    (l : List (Fin n × α)) (v : Fin n) (path : List (ResidualArc m)) : Prop where
  leads : p.Leads path s v
  nodup : (path.map (·.arc)).Nodup
  tight : ∀ r ∈ path, delta ≤ p.room st.flow r ∧ ∃ du dv, (p.source r, du) ∈ l ∧
    (p.target r, dv) ∈ l ∧ dv = du + length p st r

theorem Traced.mono {l : List (Fin n × α)} {v : Fin n} {path : List (ResidualArc m)}
    (h : Traced p st s delta l v path) (x : Fin n × α) :
    Traced p st s delta (x :: l) v path := by
  refine ⟨h.leads, h.nodup, fun r hr => ?_⟩
  obtain ⟨hroom, du, dv, hsource, htarget, hd⟩ := h.tight r hr
  exact ⟨hroom, du, dv, List.mem_cons_of_mem _ hsource, List.mem_cons_of_mem _ htarget, hd⟩

/-- One more arc leads to a node that is new. -/
theorem Traced.cons {l : List (Fin n × α)} {path : List (ResidualArc m)} {r : ResidualArc m}
    {du d : α} (h : Traced p st s delta l (p.source r) path) (hsource : (p.source r, du) ∈ l)
    (hnew : p.target r ∉ l.map (·.1)) (hroom : delta ≤ p.room st.flow r)
    (hd : d = du + length p st r) :
    Traced p st s delta ((p.target r, d) :: l) (p.target r) (r :: path) := by
  refine ⟨?_, ?_, ?_⟩
  · have hlast : p.Leads [r] (p.source r) (p.target r) := Network.Leads.cons (p.leads_nil _)
    exact (h.leads.append hlast).of_perm (List.perm_append_singleton r _).symm
  · rw [List.map_cons, List.nodup_cons]
    refine ⟨arc_notMem hnew fun r' hr' => ?_, h.nodup⟩
    obtain ⟨-, du', dv', hsrc, htgt, -⟩ := h.tight r' hr'
    exact ⟨⟨du', hsrc⟩, ⟨dv', htgt⟩⟩
  · intro r' hr'
    rcases List.mem_cons.mp hr' with rfl | hr'
    · exact ⟨hroom, du, d, List.mem_cons_of_mem _ hsource, List.mem_cons_self, hd⟩
    · exact (h.mono _).tight r' hr'

/-- Following the residual arcs back along a chain gives a way over distinct wide arcs. -/
theorem traced_pathBack {pred : Table (Option (ResidualArc m)) n} {l : List (Fin n × α)}
    (hchain : Chained p st s delta pred l) (hnodup : (l.map (·.1)).Nodup) {v : Fin n} {d : α}
    (hv : (v, d) ∈ l) {count : Nat} (hcount : l.length ≤ count) :
    Traced p st s delta l v (pathBack p pred s count v) := by
  induction l generalizing v d count with
  | nil => simp at hv
  | cons x l ih =>
      obtain ⟨w, e⟩ := x
      obtain ⟨hhead, htail⟩ := hchain
      rw [List.map_cons, List.nodup_cons] at hnodup
      rw [List.length_cons] at hcount
      rcases List.mem_cons.mp hv with heq | hv
      · cases heq
        obtain ⟨count, rfl⟩ : ∃ k, count = k + 1 := ⟨count - 1, by omega⟩
        by_cases hs : v = s
        · subst hs
          simp only [pathBack, if_true]
          exact ⟨p.leads_nil _, List.nodup_nil, by simp⟩
        · obtain ⟨r, du, hpred, rfl, hsource, hroom, hd⟩ := hhead.resolve_left hs
          have hpathBack : pathBack p pred s (count + 1) (p.target r) =
              r :: pathBack p pred s count (p.source r) := by
            simp [pathBack, hs, hpred]
          rw [hpathBack]
          exact (ih htail hnodup.2 hsource (Nat.le_of_succ_le_succ hcount)).cons hsource hnodup.1
            hroom hd
      · exact (ih htail hnodup.2 hv (Nat.le_of_succ_le hcount)).mono _

/-- The way back from the node settled last. -/
theorem Search.Linked.traced (h : q.Linked p st s delta) {u : Fin n} {d : α}
    (hnearest : q.nearest = some (u, d)) :
    Traced p st s delta ((u, d) :: q.order) u (pathBack p q.pred s n u) := by
  have hnodup := h.nodup_settle hnearest
  have hlength : (q.settle u d).order.length ≤ n := by
    have := hnodup.length_le_card
    simpa using this
  exact traced_pathBack (h.chained_settle hnearest) hnodup List.mem_cons_self hlength

/-- A deficit that is the nearest node is reached by a usable way. -/
theorem Search.Linked.route (h : q.Linked p st s delta) {u : Fin n} {d : α}
    (hnearest : q.nearest = some (u, d)) (hne : u ≠ s) (hdeficit : st.excess[u] ≤ -delta) :
    Route.Usable p st s delta
      { target := u, dist := d, path := pathBack p q.pred s n u,
        settled := (u, d) :: q.order } := by
  have htraced := h.traced hnearest
  exact ⟨hne, hdeficit, htraced.leads, htraced.nodup, fun r hr => (htraced.tight r hr).1⟩

/-- When there is no nearest node, the settled nodes are sealed. -/
theorem Search.Linked.sealed (h : q.Linked p st s delta) (hnearest : q.nearest = none) :
    Sealed p st s delta {v | q.settled[v] = true} where
  self_mem := by
    simp only [Finset.mem_filter, Finset.mem_univ, true_and]
    exact nearest_eq_none hnearest h.start_reached
  closed r hroom hr := by
    simp only [Finset.mem_filter, Finset.mem_univ, true_and] at hr ⊢
    obtain ⟨du, hdu⟩ := (h.settled_iff _).mp hr
    exact nearest_eq_none hnearest (h.scanned _ du hdu r rfl hroom)
  sated v hv hne := by
    simp only [Finset.mem_filter, Finset.mem_univ, true_and] at hv
    obtain ⟨e, he⟩ := (h.settled_iff v).mp hv
    exact h.sated v e he hne

theorem Search.Linked.length_le (h : q.Linked p st s delta) : q.order.length ≤ n := by
  have := h.nodup.length_le_card
  simpa using this

end Links

section Found

variable {α : Type} [Scalar α] {p : Indexed n m α} {st : State n m α} {s : Fin n} {delta : Int}
  {q : Search n m α}

/-- What holds of a search and is kept when a node is settled holds when the search ends: at a
deficit that is the nearest node, or without a nearest node. -/
theorem searchFrom_spec {P : Search n m α → Prop} (hlinked : ∀ q, P q → q.Linked p st s delta)
    (hstep : ∀ q u d, P q → q.nearest = some (u, d) → (u ≠ s → -delta < st.excess[u]) →
      P (p.rows[u].toList.foldl (look p st delta d) (q.settle u d)))
    {count : Nat} (h : P q) (hcount : q.order.length + count = n + 1) :
    (∀ way, searchFrom p st s delta count q = some way →
      ∃ q u d, P q ∧ q.nearest = some (u, d) ∧ u ≠ s ∧ st.excess[u] ≤ -delta ∧
        way = { target := u, dist := d, path := pathBack p q.pred s n u,
                settled := (u, d) :: q.order }) ∧
      (searchFrom p st s delta count q = none → ∃ q, P q ∧ q.nearest = none) := by
  induction count generalizing q with
  | zero =>
      have := (hlinked q h).length_le
      omega
  | succ count ih =>
      cases hnearest : q.nearest with
      | none =>
          simp only [searchFrom, hnearest]
          exact ⟨by simp, fun _ => ⟨q, h, hnearest⟩⟩
      | some x =>
          obtain ⟨u, d⟩ := x
          simp only [searchFrom, hnearest]
          split
          · rename_i hfound
            refine ⟨fun way hway => ?_, by simp⟩
            cases hway
            exact ⟨q, u, d, h, hnearest, hfound.1, hfound.2, rfl⟩
          · rename_i hfound
            have hsated : u ≠ s → -delta < st.excess[u] := by
              intro hne
              by_contra hle
              exact hfound ⟨hne, not_lt.mp hle⟩
            have hnext := hstep q u d h hnearest hsated
            have horder := congrArg List.length
              (looked_foldl p st delta d p.rows[u].toList (q.settle u d)).order_eq
            rw [Array.foldl_toList] at hnext horder
            apply ih hnext
            show (Array.foldl (look p st delta d) (q.settle u d) p.rows[u]).order.length + count =
              n + 1
            rw [horder]
            show q.order.length + 1 + count = n + 1
            omega

private theorem linked_step (hrows : p.rows = p.toNetwork.rows) (q : Search n m α) (u : Fin n)
    (d : α) (h : q.Linked p st s delta) (hnearest : q.nearest = some (u, d))
    (hsated : u ≠ s → -delta < st.excess[u]) :
    (p.rows[u].toList.foldl (look p st delta d) (q.settle u d)).Linked p st s delta :=
  h.step hnearest hsated (fun _ => Network.mem_row hrows) (looked_foldl p st delta d _ _)

/-- A way that the search returns is usable. -/
theorem usable_route (hrows : p.rows = p.toNetwork.rows) {way : Route n m α}
    (h : nearestDeficit p st s delta = some way) : Route.Usable p st s delta way := by
  obtain ⟨q, u, d, hq, hnearest, hne, hdeficit, rfl⟩ :=
    (searchFrom_spec (fun _ hq => hq) (linked_step hrows) (Search.Linked.start s)
      (by simp [Search.start])).1 way h
  exact hq.route hnearest hne hdeficit

/-- If the search returns no way, its start is sealed off from every large deficit. -/
theorem exists_sealed (hrows : p.rows = p.toNetwork.rows)
    (h : nearestDeficit p st s delta = none) : ∃ nodes, Sealed p st s delta nodes := by
  obtain ⟨q, hq, hnearest⟩ :=
    (searchFrom_spec (fun _ hq => hq) (linked_step hrows) (Search.Linked.start s)
      (by simp [Search.start])).2 h
  exact ⟨_, hq.sealed hnearest⟩

end Found

section Distances

variable [inst : ExactCosts]

/-- The residual arcs with room for `delta` have no negative reduced costs. -/
def WideOptimal (p : Indexed n m Int) (st : State n m Int) (delta : Int) : Prop :=
  ∀ r, delta ≤ p.room st.flow r → 0 ≤ p.reduced p.cost st.potential r

/-- What a search knows is right: the distances of the settled nodes are those of shortest
paths. -/
structure Search.Valid (p : Indexed n m Int) (st : State n m Int) (s : Fin n) (delta : Int)
    (q : Search n m Int) : Prop extends Search.Linked p st s delta q where
  dist_start : q.dist[s] = some 0
  nonneg : ∀ (v : Fin n) d, q.dist[v] = some d → 0 ≤ d
  sorted : ∀ u du, (u, du) ∈ q.order → ∀ (v : Fin n) d, q.settled[v] = false →
    q.dist[v] = some d → du ≤ d
  relaxed : ∀ u du, (u, du) ∈ q.order → ∀ r, p.source r = u → delta ≤ p.room st.flow r →
    ∃ d, q.dist[p.target r] = some d ∧ d ≤ du + p.reduced p.cost st.potential r

/-- A usable way with distances that are tight along it and grow by no more than the reduced cost
along any wide residual arc. -/
structure Route.Valid (p : Indexed n m Int) (st : State n m Int) (s : Fin n) (delta : Int)
    (way : Route n m Int) : Prop extends Route.Usable p st s delta way where
  settled_nodup : (way.settled.map (·.1)).Nodup
  le_dist : ∀ v d, (v, d) ∈ way.settled → d ≤ way.dist
  tight : ∀ r ∈ way.path, ∃ du dv, (p.source r, du) ∈ way.settled ∧
    (p.target r, dv) ∈ way.settled ∧ dv = du + p.reduced p.cost st.potential r
  relaxed : ∀ r du, delta ≤ p.room st.flow r → (p.source r, du) ∈ way.settled →
    (∃ dv, (p.target r, dv) ∈ way.settled ∧ dv ≤ du + p.reduced p.cost st.potential r) ∨
      way.dist ≤ du + p.reduced p.cost st.potential r

variable {p : Indexed n m Int} {st : State n m Int} {s : Fin n} {delta : Int}
  {q : Search n m Int}

/-- The length of a wide residual arc is its reduced cost. -/
theorem length_eq (hopt : WideOptimal p st delta) {r : ResidualArc m}
    (hr : delta ≤ p.room st.flow r) : length p st r = p.reduced p.cost st.potential r := by
  have hnonneg := hopt r hr
  unfold length
  simp only [reducedCost_eq, scalar_lt_iff, scalar_zero_eq]
  rw [if_neg (by omega)]

omit inst in
/-- The first one of two nodes, if there are any, is no farther than the second one. -/
private def NoFarther (x y : Option (Fin n × Int)) : Prop :=
  ∀ v d, y = some (v, d) → ∃ u b, x = some (u, b) ∧ b ≤ d

omit inst in
private theorem NoFarther.refl (x : Option (Fin n × Int)) : NoFarther x x :=
  fun v d h => ⟨v, d, h, le_refl d⟩

omit inst in
private theorem NoFarther.trans {x y z : Option (Fin n × Int)} (h : NoFarther x y)
    (h' : NoFarther y z) : NoFarther x z := by
  intro v d hz
  obtain ⟨u, b, hy, hb⟩ := h' v d hz
  obtain ⟨w, c, hx, hc⟩ := h u b hy
  exact ⟨w, c, hx, hc.trans hb⟩

omit inst in
private theorem noFarther_some {u v : Fin n} {b d : Int} (h : b ≤ d) :
    NoFarther (some (u, b)) (some (v, d)) := by
  intro w e he
  cases he
  exact ⟨u, b, rfl, h⟩

private theorem nearer_noFarther (q : Search n m Int) (best : Option (Fin n × Int)) (v : Fin n) :
    NoFarther (nearer q best v) best ∧ NoFarther (nearer q best v) (contender q v) := by
  unfold nearer contender
  cases q.settled[v] with
  | true => cases q.dist[v] <;> exact ⟨NoFarther.refl best, by simp [NoFarther]⟩
  | false =>
      cases q.dist[v] with
      | none => exact ⟨NoFarther.refl best, by simp [NoFarther]⟩
      | some d =>
          cases best with
          | none => exact ⟨by simp [NoFarther], NoFarther.refl _⟩
          | some x =>
              obtain ⟨u, b⟩ := x
              simp only [scalar_lt_iff]
              by_cases hlt : d < b
              · simp only [hlt, if_true]
                exact ⟨noFarther_some hlt.le, NoFarther.refl _⟩
              · simp only [hlt, if_false]
                exact ⟨NoFarther.refl _, noFarther_some (not_lt.mp hlt)⟩

/-- No unsettled node is nearer than the nearest one. -/
theorem le_of_nearest {u : Fin n} {d : Int} (h : q.nearest = some (u, d)) {v : Fin n} {x : Int}
    (hs : q.settled[v] = false) (hd : q.dist[v] = some x) : d ≤ x := by
  have hle := (foldl_best NoFarther.refl (fun _ _ _ => NoFarther.trans)
    (fun best v => ⟨(nearer_eq q best v).1, nearer_noFarther q best v⟩) (List.finRange n)
    none).2.2 v (List.mem_finRange v)
  obtain ⟨u', b, heq, hb⟩ := hle v x (contender_eq_some.mpr ⟨rfl, hs, hd⟩)
  have heq : q.nearest = some (u', b) := heq
  rw [h] at heq
  cases heq
  exact hb

/-- Looking along residual arcs from a node at distance `d` leaves nodes at distances that are
not larger, neither than before nor than those along the arcs. -/
structure Lowered (p : Indexed n m Int) (st : State n m Int) (delta d : Int)
    (rs : List (ResidualArc m)) (q q' : Search n m Int) : Prop where
  stays : ∀ (v : Fin n) x, q.dist[v] = some x → ∃ y ≤ x, q'.dist[v] = some y
  covered : ∀ r ∈ rs, delta ≤ p.room st.flow r → q.settled[p.target r] = false →
    ∃ y ≤ d + p.reduced p.cost st.potential r, q'.dist[p.target r] = some y

theorem better_iff (candidate : Int) (old : Option Int) :
    better candidate old = true ↔ ∀ x, old = some x → candidate < x := by
  cases old with
  | none => simp [better]
  | some x => simp [better, scalar_lt_iff]

theorem lowered_look (hopt : WideOptimal p st delta) (d : Int) (q : Search n m Int)
    (r : ResidualArc m) : Lowered p st delta d [r] q (look p st delta d q r) := by
  rcases look_eq p st delta d q r with ⟨heq, hworse⟩ | ⟨hroom, -, hbetter, heq⟩
  · rw [heq]
    refine ⟨fun _ x h => ⟨x, le_refl x, h⟩, fun r' hr' hroom hs => ?_⟩
    obtain rfl := List.mem_singleton.mp hr'
    have hworse := hworse hroom hs
    rw [← Bool.not_eq_true, better_iff, length_eq hopt hroom, scalar_add_eq] at hworse
    push Not at hworse
    obtain ⟨x, hx, hle⟩ := hworse
    exact ⟨x, hle, hx⟩
  · rw [heq, length_eq hopt hroom, scalar_add_eq]
    rw [better_iff, length_eq hopt hroom, scalar_add_eq] at hbetter
    refine ⟨fun v x hx => ?_, fun r' hr' _ _ => ?_⟩
    · by_cases hv : p.target r = v
      · subst hv
        exact ⟨_, (hbetter x hx).le, by simp⟩
      · exact ⟨x, le_refl x, by simpa [Table.getElem_set_of_ne _ _ hv] using hx⟩
    · obtain rfl := List.mem_singleton.mp hr'
      exact ⟨_, le_refl _, by simp⟩

theorem lowered_foldl (hopt : WideOptimal p st delta) (d : Int) (rs : List (ResidualArc m))
    (q : Search n m Int) : Lowered p st delta d rs q (rs.foldl (look p st delta d) q) := by
  induction rs generalizing q with
  | nil => exact ⟨fun _ x h => ⟨x, le_refl x, h⟩, by simp⟩
  | cons r rs ih =>
      have hfirst := lowered_look hopt d q r
      have hrest := ih (look p st delta d q r)
      refine ⟨fun v x hx => ?_, fun r' hr' hroom hs => ?_⟩
      · obtain ⟨y, hy, hd⟩ := hfirst.stays v x hx
        obtain ⟨z, hz, hd'⟩ := hrest.stays v y hd
        exact ⟨z, hz.trans hy, hd'⟩
      · rcases List.mem_cons.mp hr' with rfl | hr'
        · obtain ⟨y, hy, hd⟩ := hfirst.covered r' (by simp) hroom hs
          obtain ⟨z, hz, hd'⟩ := hrest.stays _ y hd
          exact ⟨z, hz.trans hy, hd'⟩
        · apply hrest.covered r' hr' hroom
          rwa [(looked_look p st delta d q r).settled_eq]

theorem Search.Valid.start (s : Fin n) :
    (Search.start s : Search n m Int).Valid p st s delta where
  toLinked := Search.Linked.start s
  dist_start := by simp [Search.start, scalar_zero_eq]
  nonneg v d h := by
    simp only [Search.start, Table.getElem_set, Table.getElem_const, scalar_zero_eq] at h
    split at h
    · cases h
      exact le_refl _
    · cases h
  sorted u du h := by simp [Search.start] at h
  relaxed u du h := by simp [Search.start] at h

section Step

variable {u : Fin n} {d : Int} {rs : List (ResidualArc m)} {q' : Search n m Int}

/-- The node settled last is the farthest one. -/
theorem Search.Valid.le_settle (h : q.Valid p st s delta) (hnearest : q.nearest = some (u, d))
    {v : Fin n} {e : Int} (hv : (v, e) ∈ (q.settle u d).order) : e ≤ d := by
  obtain ⟨hu, hdist⟩ := unsettled_of_nearest hnearest
  rcases mem_order_settle.mp hv with ⟨-, rfl⟩ | hv
  · exact le_refl _
  · exact h.sorted v e hv u d hu hdist

/-- Looking along an arc that leaves a settled node reaches the other end, unless that one is
settled too; then it is not farther away. -/
theorem Search.Valid.relaxed_step (hopt : WideOptimal p st delta) (h : q.Valid p st s delta)
    (hnearest : q.nearest = some (u, d)) (hrs : ∀ r, r ∈ rs ↔ p.source r = u)
    (hlook : Looked p st delta d rs (q.settle u d) q')
    (hlower : Lowered p st delta d rs (q.settle u d) q') {w : Fin n} {dw : Int}
    (hw : (w, dw) ∈ (q.settle u d).order) {r : ResidualArc m} (hr : p.source r = w)
    (hroom : delta ≤ p.room st.flow r) :
    ∃ x, q'.dist[p.target r] = some x ∧ x ≤ dw + p.reduced p.cost st.potential r := by
  have hgrow := hopt r hroom
  rcases mem_order_settle.mp hw with ⟨rfl, rfl⟩ | hw
  · cases hs : (q.settle w dw).settled[p.target r] with
    | false =>
        obtain ⟨y, hy, hd⟩ := hlower.covered r ((hrs r).mpr hr) hroom hs
        exact ⟨y, hd, hy⟩
    | true =>
        obtain ⟨e, he⟩ := (h.settled_iff_settle _).mp hs
        have hdist := h.dist_settle hnearest he
        refine ⟨e, ?_, (h.le_settle hnearest he).trans (le_add_of_nonneg_right hgrow)⟩
        exact (hlook.kept _ hs).1.trans hdist
  · obtain ⟨x, hx, hle⟩ := h.relaxed w dw hw r hr hroom
    obtain ⟨y, hy, hd⟩ := hlower.stays _ x hx
    exact ⟨y, hd, hy.trans hle⟩

/-- Settling the nearest node and looking along the residual arcs that leave it keeps what the
search knows. -/
theorem Search.Valid.step (hopt : WideOptimal p st delta) (h : q.Valid p st s delta)
    (hnearest : q.nearest = some (u, d)) (hsated : u ≠ s → -delta < st.excess[u])
    (hrs : ∀ r, r ∈ rs ↔ p.source r = u) (hlook : Looked p st delta d rs (q.settle u d) q')
    (hlower : Lowered p st delta d rs (q.settle u d) q') : q'.Valid p st s delta := by
  obtain ⟨hu, hdist⟩ := unsettled_of_nearest hnearest
  -- a distance found now is that of the node just settled and the reduced cost of an arc
  have hfound : ∀ (v : Fin n) x, q'.dist[v] = some x → q.dist[v] = some x ∨ d ≤ x := by
    intro v x hx
    rcases hlook.origin v x hx with ⟨hold, -⟩ | ⟨r, -, -, -, hroom, rfl⟩
    · exact Or.inl hold
    · rw [length_eq hopt hroom, scalar_add_eq]
      exact Or.inr (le_add_of_nonneg_right (hopt r hroom))
  have hpositive : ∀ (v : Fin n) x, q'.dist[v] = some x → 0 ≤ x := by
    intro v x hx
    rcases hfound v x hx with hold | hle
    · exact h.nonneg v x hold
    · exact (h.nonneg u d hdist).trans hle
  refine ⟨h.toLinked.step hnearest hsated hrs hlook, ?_, hpositive, fun w dw hw v x hv hx => ?_,
    fun w dw hw r hr hroom => ?_⟩
  · obtain ⟨y, hy, hd⟩ := hlower.stays s 0 h.dist_start
    have := hpositive s y hd
    obtain rfl : y = 0 := by omega
    exact hd
  · rw [hlook.order_eq] at hw
    have hw := h.le_settle hnearest hw
    have hv' : q.settled[v] = false := by
      by_contra hs
      rw [hlook.settled_eq, (settled_settle v).mpr (Or.inr (by simpa using hs))] at hv
      cases hv
    rcases hfound v x hx with hold | hle
    · exact hw.trans (le_of_nearest hnearest hv' hold)
    · exact hw.trans hle
  · rw [hlook.order_eq] at hw
    exact h.relaxed_step hopt hnearest hrs hlook hlower hw hr hroom

end Step

/-- A deficit that is the nearest node is reached by a valid way. -/
theorem Search.Valid.route (hopt : WideOptimal p st delta) (h : q.Valid p st s delta)
    {u : Fin n} {d : Int} (hnearest : q.nearest = some (u, d)) (hne : u ≠ s)
    (hdeficit : st.excess[u] ≤ -delta) :
    Route.Valid p st s delta
      { target := u, dist := d, path := pathBack p q.pred s n u,
        settled := (u, d) :: q.order } := by
  refine ⟨h.toLinked.route hnearest hne hdeficit, h.nodup_settle hnearest,
    fun v e hv => h.le_settle hnearest hv, fun r hr => ?_, fun r du hroom hsource => ?_⟩
  · obtain ⟨hroom, du, dv, hsource, htarget, hd⟩ := (h.traced hnearest).tight r hr
    rw [length_eq hopt hroom, scalar_add_eq] at hd
    exact ⟨du, dv, hsource, htarget, hd⟩
  · have hgrow := hopt r hroom
    rcases List.mem_cons.mp hsource with heq | hsource
    · cases heq
      exact Or.inr (le_add_of_nonneg_right hgrow)
    · obtain ⟨x, hx, hle⟩ := h.relaxed _ du hsource r rfl hroom
      cases hs : q.settled[p.target r] with
      | true =>
          obtain ⟨e, he⟩ := (h.settled_iff _).mp hs
          have hex := h.dist_order _ e he
          rw [hx, Option.some.injEq] at hex
          subst hex
          exact Or.inl ⟨x, List.mem_cons_of_mem _ he, hle⟩
      | false => exact Or.inr ((le_of_nearest hnearest hs hx).trans hle)

/-- The way that the search returns is a valid one. -/
theorem valid_route (hrows : p.rows = p.toNetwork.rows) (hopt : WideOptimal p st delta)
    {way : Route n m Int} (h : nearestDeficit p st s delta = some way) :
    Route.Valid p st s delta way := by
  have hstep : ∀ (q : Search n m Int) u d, q.Valid p st s delta → q.nearest = some (u, d) →
      (u ≠ s → -delta < st.excess[u]) →
      (p.rows[u].toList.foldl (look p st delta d) (q.settle u d)).Valid p st s delta :=
    fun q u d hq hnearest hsated => hq.step hopt hnearest hsated
      (fun _ => Network.mem_row hrows) (looked_foldl p st delta d _ _) (lowered_foldl hopt d _ _)
  obtain ⟨q, u, d, hq, hnearest, hne, hdeficit, rfl⟩ :=
    (searchFrom_spec (fun _ hq => hq.toLinked) hstep (Search.Valid.start s)
      (by simp [Search.start])).1 way h
  exact hq.route hopt hnearest hne hdeficit

end Distances

end NetworkFlow.CapacityScaling
