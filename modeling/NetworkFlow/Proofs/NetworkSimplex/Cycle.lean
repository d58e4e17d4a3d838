import NetworkFlow.NetworkSimplex.Pivot
import NetworkFlow.Proofs.NetworkSimplex.Refresh
import NetworkFlow.Proofs.Walk

/-!
# The cycle of an entering arc

The two ways up from the ends of an entering arc meet at their join, and have no
node in common below it. Together with the arc they are a cycle, here a list of
residual arcs (`cyclePath`): what the pivot calls slack is the room of these
arcs, and changing the flow around the cycle is sending along them.

## Main results

* `cycleOf_spec`: the two sides are the ways up to one node, and disjoint.
* `leads_cyclePath`, `nodup_cyclePath`: the residual arcs form a cycle without
  repeated arcs.
* `shiftCycle_eq`: the pivot sends along the cycle.
-/

namespace NetworkFlow.NetworkSimplex

variable {n m : Nat} {α : Type} {t : Tableau n m α} {b : Basis n m α}

theorem up_below (v : Fin n) : up b (below v) = b.parent[v] := by
  simp [up]

/-- The nodes on the way up from `u` as far as a node above it. -/
theorem wayUp_eq {u stop : Fin (n + 1)} {vs : List (Fin n)} {count : Nat}
    (h : Ascent b.parent u vs stop) (hne : ∀ v ∈ vs, below v ≠ stop) (hcount : vs.length ≤ count) :
    wayUp b stop count u = vs := by
  induction vs generalizing u count with
  | nil =>
      obtain rfl : u = stop := h
      cases count with
      | zero => rfl
      | succ count => simp [wayUp]
  | cons v vs ih =>
      obtain ⟨rfl, h⟩ := h
      rw [List.length_cons] at hcount
      obtain ⟨count, rfl⟩ : ∃ c, count = c + 1 := ⟨count - 1, by omega⟩
      have hv : below v ≠ stop := hne v (by simp)
      simp only [wayUp, hv, if_false, own?_below]
      rw [ih h (fun x hx => hne x (by simp [hx])) (by omega)]

/-- The ways up from two nodes to one above both that have no node in common. -/
def Meet (b : Basis n m α) (u v w : Fin (n + 1)) : Prop :=
  ∃ vs ws, Ascent b.parent u vs w ∧ Ascent b.parent v ws w ∧ vs.Disjoint ws

theorem Meet.symm {u v w : Fin (n + 1)} (h : Meet b u v w) : Meet b v u w := by
  obtain ⟨vs, ws, hvs, hws, hdis⟩ := h
  exact ⟨ws, vs, hws, hvs, hdis.symm⟩

/-- What is deeper than another node is not passed above that node. -/
theorem notMem_of_depth_lt (hd : Depths b.parent fun u => b.depth[u]) {x : Fin n}
    {u w : Fin (n + 1)} {vs : List (Fin n)} (h : Ascent b.parent u vs w)
    (hlt : b.depth[u] < b.depth[below x]) : x ∉ vs := by
  intro hmem
  have := (hd.lt_of_mem h hmem).2
  omega

/-- The deeper of two nodes goes a step up. -/
theorem Meet.up_left (hd : Depths b.parent fun u => b.depth[u]) {x : Fin n} {v w : Fin (n + 1)}
    (hlt : b.depth[v] < b.depth[below x]) (h : Meet b b.parent[x] v w) : Meet b (below x) v w := by
  obtain ⟨vs, ws, hvs, hws, hdis⟩ := h
  refine ⟨x :: vs, ws, Ascent.cons hvs, hws, ?_⟩
  rw [List.disjoint_cons_left]
  exact ⟨notMem_of_depth_lt hd hws hlt, hdis⟩

/-- Two nodes that are equally deep go a step up. -/
theorem Meet.up (hd : Depths b.parent fun u => b.depth[u]) {x y : Fin n} {w : Fin (n + 1)}
    (hne : x ≠ y) (heq : b.depth[below x] = b.depth[below y])
    (h : Meet b b.parent[x] b.parent[y] w) : Meet b (below x) (below y) w := by
  have hx := hd.step x
  have hy := hd.step y
  obtain ⟨vs, ws, hvs, hws, hdis⟩ := h
  refine ⟨x :: vs, y :: ws, Ascent.cons hvs, Ascent.cons hws, ?_⟩
  rw [List.disjoint_cons_left, List.disjoint_cons_right, List.mem_cons, not_or]
  exact ⟨⟨hne, notMem_of_depth_lt hd hws (by omega)⟩, notMem_of_depth_lt hd hvs (by omega), hdis⟩

theorem eq_root_of_depth (hd : Depths b.parent fun u => b.depth[u]) {u : Fin (n + 1)}
    (hu : b.depth[u] = 0) : u = root n := by
  rcases eq_root_or_below u with h | ⟨x, rfl⟩
  · exact h
  · have := hd.step x
    omega

/-- A node that is deeper than another one is not the root. -/
theorem exists_below_of_lt (hd : Depths b.parent fun u => b.depth[u]) {u v : Fin (n + 1)}
    (hlt : b.depth[v] < b.depth[u]) : ∃ x : Fin n, u = below x := by
  rcases eq_root_or_below u with rfl | h
  · have := hd.root_eq
    omega
  · exact h

/-- The ways up from two nodes meet at their join, for the first time. -/
theorem join_spec (hd : Depths b.parent fun u => b.depth[u]) {count : Nat} {u v : Fin (n + 1)}
    (hcount : b.depth[u] + b.depth[v] ≤ count) : Meet b u v (join b count u v) := by
  induction count generalizing u v with
  | zero =>
      obtain rfl := eq_root_of_depth hd (u := u) (by omega)
      obtain rfl := eq_root_of_depth hd (u := v) (by omega)
      exact ⟨[], [], Ascent.nil _, Ascent.nil _, by simp⟩
  | succ count ih =>
      by_cases huv : u = v
      · subst huv
        simp only [join, if_true]
        exact ⟨[], [], Ascent.nil _, Ascent.nil _, by simp⟩
      · simp only [join, huv, if_false]
        rcases Nat.lt_trichotomy b.depth[v] b.depth[u] with hlt | heq | hgt
        · obtain ⟨x, rfl⟩ := exists_below_of_lt hd hlt
          have hstep := hd.step x
          rw [if_pos hlt, up_below]
          exact Meet.up_left hd hlt (ih (by omega))
        · have hpos : b.depth[root n] < b.depth[u] ∧ b.depth[root n] < b.depth[v] := by
            have hroot := hd.root_eq
            by_contra hnot
            exact huv ((eq_root_of_depth hd (by omega)).trans
              (eq_root_of_depth hd (by omega)).symm)
          obtain ⟨x, rfl⟩ := exists_below_of_lt hd hpos.1
          obtain ⟨y, rfl⟩ := exists_below_of_lt hd hpos.2
          have hx := hd.step x
          have hy := hd.step y
          rw [if_neg (by omega), if_neg (by omega), up_below, up_below]
          exact Meet.up hd (fun h => huv (h ▸ rfl)) heq.symm (ih (by omega))
        · obtain ⟨x, rfl⟩ := exists_below_of_lt hd hgt
          have hstep := hd.step x
          rw [if_neg (by omega), if_pos hgt, up_below]
          exact (Meet.up_left hd hgt (ih (by omega)).symm).symm

/-- The sides of a cycle are the ways up from the ends of the entering arc to one node; they
have no node in common. -/
theorem cycleOf_spec (hd : Depths b.parent fun u => b.depth[u]) (a : Fin (m + n)) :
    ∃ top, Ascent b.parent (cycleOf t b a).first (cycleOf t b a).firstSide top ∧
      Ascent b.parent (cycleOf t b a).second (cycleOf t b a).secondSide top ∧
      (cycleOf t b a).firstSide.Disjoint (cycleOf t b a).secondSide := by
  have hway : ∀ {u top : Fin (n + 1)} {vs : List (Fin n)}, Ascent b.parent u vs top →
      wayUp b top (n + 1) u = vs := by
    intro u top vs hvs
    refine wayUp_eq hvs (fun v hv heq => ?_) ?_
    · have := (hd.lt_of_mem hvs hv).1
      simp only [heq] at this
      omega
    · have h₁ := hd.add_length hvs
      have h₂ := hd.le_nodes u
      omega
  obtain ⟨vs, ws, hvs, hws, hdis⟩ := join_spec hd (u := (cycleOf t b a).first)
    (v := (cycleOf t b a).second) le_rfl
  have hfirst : (cycleOf t b a).firstSide = vs := hway hvs
  have hsecond : (cycleOf t b a).secondSide = ws := hway hws
  rw [hfirst, hsecond]
  exact ⟨_, hvs, hws, hdis⟩

/-- The cycle does not depend on where the next search begins. -/
theorem cycleOf_with_cursor (b : Basis n m α) (cursor : Nat) (a : Fin (m + n)) :
    cycleOf t { b with cursor := cursor } a = cycleOf t b a := by
  have hjoin : ∀ count u v, join { b with cursor := cursor } count u v = join b count u v := by
    intro count
    induction count with
    | zero => exact fun _ _ => rfl
    | succ count ih =>
        intro u v
        simp only [join, ih]
        rfl
  have hway : ∀ stop count u,
      wayUp { b with cursor := cursor } stop count u = wayUp b stop count u := by
    intro stop count
    induction count with
    | zero => exact fun _ => rfl
    | succ count ih =>
        intro u
        simp only [wayUp, ih]
  simp only [cycleOf, hjoin, hway]

/-- The residual arc along the link of a node, up to its parent (`rising`) or down from it. -/
def linkArc (t : Tableau n m α) (b : Basis n m α) (v : Fin n) (rising : Bool) :
    ResidualArc (m + n) :=
  ⟨b.link[v], linkUp t b v != rising⟩

/-- The residual arc along which an entering arc changes its flow. -/
def entryArc (b : Basis n m α) (a : Fin (m + n)) : ResidualArc (m + n) := ⟨a, b.state[a] ≠ .lower⟩

/-- The residual arcs of the cycle of an entering arc. -/
def cyclePath (t : Tableau n m α) (b : Basis n m α) (a : Fin (m + n)) :
    List (ResidualArc (m + n)) :=
  entryArc b a :: ((cycleOf t b a).firstSide.map (linkArc t b · false) ++
    (cycleOf t b a).secondSide.map (linkArc t b · true))

theorem linkArc_false (v : Fin n) : linkArc t b v false = (linkArc t b v true).reverse := by
  simp [linkArc, ResidualArc.reverse]

/-- Up along a link is from the node to its parent. -/
theorem source_linkArc (h : Hung t b) (v : Fin n) :
    t.source (linkArc t b v true) = below v ∧ t.target (linkArc t b v true) = b.parent[v] := by
  obtain ⟨depth, hd⟩ := h.exists_depths
  have hne := hd.parent_ne v
  rcases h.joins v with ⟨h₁, h₂⟩ | ⟨h₁, h₂⟩
  · simp [linkArc, linkUp, Network.source, Network.target, h₁, h₂]
  · simp [linkArc, linkUp, Network.source, Network.target, h₁, h₂, hne]

theorem leads_up (h : Hung t b) {u w : Fin (n + 1)} {vs : List (Fin n)}
    (hvs : Ascent b.parent u vs w) : t.Leads (vs.map (linkArc t b · true)) u w := by
  induction vs generalizing u with
  | nil =>
      obtain rfl : u = w := hvs
      exact t.leads_nil u
  | cons v vs ih =>
      obtain ⟨rfl, hvs⟩ := hvs
      obtain ⟨hsource, htarget⟩ := source_linkArc h v
      rw [List.map_cons, ← hsource]
      exact Network.Leads.cons (htarget ▸ ih hvs)

theorem leads_down (h : Hung t b) {u w : Fin (n + 1)} {vs : List (Fin n)}
    (hvs : Ascent b.parent u vs w) : t.Leads (vs.map (linkArc t b · false)) w u := by
  intro weight
  have hup := leads_up h hvs weight
  have hneg : ∀ vs : List (Fin n), ((vs.map (linkArc t b · false)).map fun r =>
      weight (t.source r) - weight (t.target r)).sum =
      -((vs.map (linkArc t b · true)).map fun r =>
        weight (t.source r) - weight (t.target r)).sum := by
    intro vs
    induction vs with
    | nil => simp
    | cons v vs ih =>
        simp only [List.map_cons, List.sum_cons] at ih ⊢
        rw [ih, linkArc_false, t.source_reverse, t.target_reverse]
        ring
  rw [hneg, hup]
  ring

theorem source_entryArc (a : Fin (m + n)) : t.source (entryArc b a) = (cycleOf t b a).first := by
  by_cases h : b.state[a] = .lower <;> simp [Network.source, entryArc, cycleOf, h]

theorem target_entryArc (a : Fin (m + n)) : t.target (entryArc b a) = (cycleOf t b a).second := by
  by_cases h : b.state[a] = .lower <;> simp [Network.target, entryArc, cycleOf, h]

/-- The residual arcs of the cycle lead back to where they begin. -/
theorem leads_cyclePath (h : Hung t b) (hd : Depths b.parent fun u => b.depth[u])
    (a : Fin (m + n)) :
    t.Leads (cyclePath t b a) (cycleOf t b a).first (cycleOf t b a).first := by
  obtain ⟨top, hfirst, hsecond, -⟩ := cycleOf_spec (t := t) hd a
  have hback : t.Leads ((cycleOf t b a).firstSide.map (linkArc t b · false) ++
      (cycleOf t b a).secondSide.map (linkArc t b · true)) (cycleOf t b a).second
        (cycleOf t b a).first := by
    apply ((leads_up h hsecond).append (leads_down h hfirst)).of_perm
    exact List.perm_append_comm
  rw [← target_entryArc] at hback
  have := hback.cons
  rwa [source_entryArc] at this

/-- The links of the cycle, and no arc twice. -/
theorem nodup_cyclePath [Scalar α] (h : Spanning t b) {a : Fin (m + n)} (ha : b.state[a] ≠ .tree) :
    ((cyclePath t b a).map (·.arc)).Nodup := by
  obtain ⟨top, hfirst, hsecond, hdis⟩ := cycleOf_spec (t := t) h.depths a
  have hnodup : ((cycleOf t b a).firstSide ++ (cycleOf t b a).secondSide).Nodup :=
    List.Nodup.append (h.depths.nodup hfirst) (h.depths.nodup hsecond) hdis
  have harcs : (cyclePath t b a).map (·.arc) =
      a :: ((cycleOf t b a).firstSide ++ (cycleOf t b a).secondSide).map (b.link[·]) := by
    simp [cyclePath, entryArc, linkArc, Function.comp_def]
  rw [harcs, List.nodup_cons]
  constructor
  · intro hmem
    obtain ⟨v, -, hv⟩ := List.mem_map.mp hmem
    exact ha ((h.state_tree a).mpr ⟨v, hv⟩)
  · exact hnodup.map fun u v huv => h.link_injective huv

/-- The slack of a link is the room of its residual arc. -/
theorem slack_eq (v : Fin n) (rising : Bool) :
    slack t b v rising = t.room b.flow (linkArc t b v rising) := by
  by_cases h : linkUp t b v = rising <;> simp [slack, Network.room, linkArc, h]

theorem foldl_shiftLink (amount : Int) (rising : Bool) (vs : List (Fin n)) (flow : Table Int (m + n)) :
    vs.foldl (shiftLink t amount rising) { b with flow := flow } =
      { b with flow := sendAll flow (vs.map (linkArc t b · rising)) amount } := by
  induction vs generalizing flow with
  | nil => rfl
  | cons v vs ih =>
      have hstep : shiftLink t amount rising { b with flow := flow } v =
          { b with flow := sendAlong flow (linkArc t b v rising) amount } := by
        have hup : linkUp t { b with flow := flow } v = linkUp t b v := rfl
        by_cases h : linkUp t b v = rising
        · simp [shiftLink, sendAlong, linkArc, hup, h]
        · simp [shiftLink, sendAlong, linkArc, hup, h]
      rw [List.foldl_cons, hstep, ih]
      rfl

/-- A pivot sends along the cycle of the entering arc. -/
theorem shiftCycle_eq (a : Fin (m + n)) (amount : Int) :
    shiftCycle t b a (cycleOf t b a) amount =
      { b with flow := sendAll b.flow (cyclePath t b a) amount } := by
  have hentry : b.flow.set a
      (if b.state[a] = .lower then b.flow[a] + amount else b.flow[a] - amount) =
        sendAlong b.flow (entryArc b a) amount := by
    by_cases h : b.state[a] = .lower <;> simp [sendAlong, entryArc, h]
  unfold shiftCycle
  simp only [hentry]
  rw [foldl_shiftLink, foldl_shiftLink, cyclePath, sendAll_cons, sendAll_append]
  rfl

end NetworkFlow.NetworkSimplex
