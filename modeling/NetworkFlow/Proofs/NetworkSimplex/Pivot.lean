import NetworkFlow.Proofs.Exact
import NetworkFlow.Proofs.Iteration
import NetworkFlow.Proofs.NetworkSimplex.Exchange

/-!
# What a pivot does

A basis of the run is `Consistent`: a spanning tree with a flow that stays within
the capacities, rests at one of its bounds outside the tree and meets the
supplies. A pivot on an arc outside the tree sends the least room of the cycle
around it and exchanges an arc without room left for the entering one. This
keeps the basis consistent and changes the cost by the amount times the reduced
cost of the entering arc.

## Main results

* `leaving_spec`: the amount is the least room of the cycle, attained by the
  leaving arc, the smallest such arc if the rule that cannot cycle is in force.
* `pivot_eq`, `pivoted_spec`: a pivot in terms of residual arcs.
* `Consistent.pivoted`: a pivot keeps the basis consistent.
* `costOf_pivoted`: what a pivot does to the cost.
-/

namespace NetworkFlow.NetworkSimplex

open scoped ExactCosts

variable {n m : Nat}

section Leaving

variable {α : Type} {t : Tableau n m α} {b : Basis n m α}

/-- A candidate to leave is no worse than another one. -/
def Leaving.Before (bland : Bool) (l l' : Leaving n m) : Prop :=
  l.amount ≤ l'.amount ∧ (bland → l.amount = l'.amount → l.arc ≤ l'.arc)

theorem Leaving.Before.refl (bland : Bool) (l : Leaving n m) : l.Before bland l :=
  ⟨le_refl _, fun _ _ => le_refl _⟩

theorem Leaving.Before.trans {bland : Bool} {l l' l'' : Leaving n m} (h : l.Before bland l')
    (h' : l'.Before bland l'') : l.Before bland l'' := by
  refine ⟨le_trans h.1 h'.1, fun hb heq => ?_⟩
  have h₁ := h.1
  have h₂ := h'.1
  exact le_trans (h.2 hb (by omega)) (h'.2 hb (by omega))

/-- The link of a node as a candidate to leave. -/
def candidate (t : Tableau n m α) (b : Basis n m α) (onFirst : Bool) (v : Fin n) : Leaving n m :=
  ⟨slack t b v !onFirst, b.link[v], some (v, onFirst)⟩

theorem limitFirst_spec (l : Leaving n m) (v : Fin n) :
    (limitFirst t b l v = l ∨ limitFirst t b l v = candidate t b true v) ∧
      (limitFirst t b l v).Before b.bland l ∧
      (limitFirst t b l v).Before b.bland (candidate t b true v) := by
  unfold limitFirst candidate Leaving.Before
  simp only [Bool.not_true]
  split_ifs with h
  · have hle : slack t b v false ≤ l.amount := by omega
    refine ⟨Or.inr rfl, ⟨hle, fun hb heq => ?_⟩, le_refl _, fun _ _ => le_refl _⟩
    simp only at heq
    rcases h with h | h
    · omega
    · exact h.2.2.le
  · rw [not_or] at h
    refine ⟨Or.inl rfl, ⟨le_refl _, fun _ _ => le_refl _⟩, by omega, fun hb heq => ?_⟩
    by_contra hlt
    exact h.2 ⟨hb, heq.symm, not_le.mp hlt⟩

theorem limitSecond_spec (l : Leaving n m) (v : Fin n) :
    (limitSecond t b l v = l ∨ limitSecond t b l v = candidate t b false v) ∧
      (limitSecond t b l v).Before b.bland l ∧
      (limitSecond t b l v).Before b.bland (candidate t b false v) := by
  unfold limitSecond candidate Leaving.Before
  simp only [Bool.not_false]
  split_ifs with h
  · have hle : slack t b v true ≤ l.amount := by omega
    refine ⟨Or.inr rfl, ⟨hle, fun hb heq => ?_⟩, le_refl _, fun _ _ => le_refl _⟩
    simp only at heq
    rcases h with h | h
    · omega
    · exact (h.2.resolve_left (fun hn => hn hb)).le
  · rw [not_or] at h
    refine ⟨Or.inl rfl, ⟨le_refl _, fun _ _ => le_refl _⟩, by omega, fun hb heq => ?_⟩
    by_contra hlt
    exact h.2 ⟨heq.symm, Or.inr (not_le.mp hlt)⟩

/-- The arc that leaves when an arc enters, and by how much the flow changes. -/
def leaving (t : Tableau n m α) (b : Basis n m α) (a : Fin (m + n)) : Leaving n m :=
  leavingOf t b a (cycleOf t b a)

theorem leaving_with_cursor (b : Basis n m α) (cursor : Nat) (a : Fin (m + n)) :
    leaving t { b with cursor := cursor } a = leaving t b a := by
  rw [leaving, cycleOf_with_cursor]
  rfl

/-- Which residual arc of the cycle the leaving arc is. -/
def Leaves (t : Tableau n m α) (b : Basis n m α) (a : Fin (m + n)) (r : ResidualArc (m + n)) :
    Prop :=
  ((leaving t b a).place = none ∧ r = entryArc b a) ∨
    (∃ v ∈ (cycleOf t b a).firstSide,
      (leaving t b a).place = some (v, true) ∧ r = linkArc t b v false) ∨
    ∃ v ∈ (cycleOf t b a).secondSide,
      (leaving t b a).place = some (v, false) ∧ r = linkArc t b v true

theorem Leaves.mem_cyclePath {a : Fin (m + n)} {r : ResidualArc (m + n)} (h : Leaves t b a r) :
    r ∈ cyclePath t b a := by
  rw [cyclePath, List.mem_cons, List.mem_append, List.mem_map, List.mem_map]
  rcases h with ⟨-, rfl⟩ | ⟨v, hv, -, rfl⟩ | ⟨v, hv, -, rfl⟩
  · exact Or.inl rfl
  · exact Or.inr (Or.inl ⟨v, hv, rfl⟩)
  · exact Or.inr (Or.inr ⟨v, hv, rfl⟩)

/-- The other arcs of the cycle are links. -/
theorem state_of_mem_cyclePath [Scalar α] (h : Spanning t b) {a : Fin (m + n)}
    {r : ResidualArc (m + n)} (hr : r ∈ cyclePath t b a) (hne : r.arc ≠ a) :
    b.state[r.arc] = .tree := by
  rw [cyclePath, List.mem_cons] at hr
  rcases hr with rfl | hr
  · exact absurd rfl hne
  · rcases List.mem_append.mp hr with hr | hr <;>
      · obtain ⟨v, -, rfl⟩ := List.mem_map.mp hr
        exact (h.state_tree _).mpr ⟨v, rfl⟩

/-- Only the entering arc itself is the residual arc of the cycle along the entering arc. -/
theorem eq_entryArc_of_mem [Scalar α] (h : Spanning t b) {a : Fin (m + n)}
    (ha : b.state[a] ≠ .tree) {r : ResidualArc (m + n)} (hr : r ∈ cyclePath t b a)
    (harc : r.arc = a) : r = entryArc b a := by
  have hnodup := nodup_cyclePath h ha
  have hentry : entryArc b a ∈ cyclePath t b a := by simp [cyclePath]
  exact List.inj_on_of_nodup_map hnodup hr hentry harc

/-- The leaving arc has the least room of the cycle, and the smallest number among the arcs
with so little room if the rule that cannot cycle is in force. -/
theorem leaving_spec {a : Fin (m + n)} (hroom : t.room b.flow (entryArc b a) = t.cap[a]) :
    (∃ r, Leaves t b a r ∧ r.arc = (leaving t b a).arc ∧
      t.room b.flow r = (leaving t b a).amount) ∧
    ∀ r ∈ cyclePath t b a, (leaving t b a).amount ≤ t.room b.flow r ∧
      (b.bland → t.room b.flow r = (leaving t b a).amount → (leaving t b a).arc ≤ r.arc) := by
  obtain ⟨hcase₁, hentry, hfirst⟩ := foldl_best (Leaving.Before.refl b.bland)
    (fun _ _ _ => Leaving.Before.trans) (limitFirst_spec (t := t) (b := b))
    (cycleOf t b a).firstSide ⟨t.cap[a], a, none⟩
  obtain ⟨hcase₂, hbefore, hsecond⟩ := foldl_best (Leaving.Before.refl b.bland)
    (fun _ _ _ => Leaving.Before.trans) (limitSecond_spec (t := t) (b := b))
    (cycleOf t b a).secondSide
      ((cycleOf t b a).firstSide.foldl (limitFirst t b) ⟨t.cap[a], a, none⟩)
  change (leaving t b a = _ ∨ ∃ v ∈ _, leaving t b a = _) at hcase₂
  change (leaving t b a).Before _ _ at hbefore
  change ∀ v ∈ _, (leaving t b a).Before _ _ at hsecond
  constructor
  · rcases hcase₂ with heq | ⟨v, hv, heq⟩
    · rcases hcase₁ with heq' | ⟨v, hv, heq'⟩
      · rw [heq'] at heq
        refine ⟨entryArc b a, Or.inl ⟨by rw [heq], rfl⟩, by rw [heq]; rfl, by rw [heq, hroom]⟩
      · rw [heq'] at heq
        refine ⟨linkArc t b v false, Or.inr (Or.inl ⟨v, hv, by rw [heq]; rfl, rfl⟩),
          by rw [heq]; rfl, ?_⟩
        rw [heq, ← slack_eq]
        rfl
    · refine ⟨linkArc t b v true, Or.inr (Or.inr ⟨v, hv, by rw [heq]; rfl, rfl⟩),
        by rw [heq]; rfl, ?_⟩
      rw [heq, ← slack_eq]
      rfl
  · intro r hr
    rw [cyclePath, List.mem_cons, List.mem_append, List.mem_map, List.mem_map] at hr
    rcases hr with rfl | ⟨v, hv, rfl⟩ | ⟨v, hv, rfl⟩
    · obtain ⟨hle, harc⟩ := hbefore.trans hentry
      rw [hroom]
      exact ⟨hle, fun hb heq => harc hb heq.symm⟩
    · obtain ⟨hle, harc⟩ := hbefore.trans (hfirst v hv)
      rw [← slack_eq]
      exact ⟨hle, fun hb heq => harc hb heq.symm⟩
    · obtain ⟨hle, harc⟩ := hsecond v hv
      rw [← slack_eq]
      exact ⟨hle, fun hb heq => harc hb heq.symm⟩

end Leaving

/-- A basis of the run: its tree spans, and its flow stays within the capacities, rests at a
bound outside the tree and meets the supplies. -/
structure Consistent {α : Type} [Scalar α] (t : Tableau n m α) (supply : Table Int n)
    (b : Basis n m α) : Prop extends Spanning t b where
  within : t.Within b.flow
  lower_eq : ∀ a : Fin (m + n), b.state[a] = .lower → b.flow[a] = 0
  upper_eq : ∀ a : Fin (m + n), b.state[a] = .upper → b.flow[a] = t.cap[a]
  balanced : ∀ v : Fin n, t.outflow b.flow (below v) = supply[v]

/-- The basis after a pivot. -/
def pivoted {α : Type} [Scalar α] (t : Tableau n m α) (b : Basis n m α) (a : Fin (m + n)) :
    Basis n m α :=
  exchange t { b with flow := sendAll b.flow (cyclePath t b a) (leaving t b a).amount } a
    (cycleOf t b a) (leaving t b a)

variable {α : Type} [Scalar α] {t : Tableau n m α} {supply : Table Int n} {b : Basis n m α}
  {a : Fin (m + n)}

theorem Spanning.with_flow (h : Spanning t b) (flow : Table Int (m + n)) :
    Spanning t { b with flow := flow } :=
  ⟨⟨h.joins, h.mem_children, h.linked, h.exists_depths⟩, h.depth_root, h.potential_root,
    h.settled, h.state_tree⟩

section Costs

variable [inst : ExactCosts] {t : Tableau n m Int} {b : Basis n m Int}

/-- The links have no reduced cost. -/
theorem reduced_linkArc (h : Spanning t b) (v : Fin n) (rising : Bool) :
    t.reduced t.cost b.potential (linkArc t b v rising) = 0 := by
  have hup : t.reduced t.cost b.potential (linkArc t b v true) = 0 := by
    obtain ⟨hsource, htarget⟩ := source_linkArc h.toHung v
    have hpotential : b.potential[below v] =
        if t.tail[b.link[v]] = below v then b.potential[b.parent[v]] - t.cost[b.link[v]]
        else b.potential[b.parent[v]] + t.cost[b.link[v]] := by
      rw [(h.settled v).2]
      obtain ⟨w, hw⟩ := inst
      subst hw
      rfl
    rw [Network.reduced, hsource, htarget, hpotential, ResidualArc.price]
    by_cases htail : t.tail[b.link[v]] = below v
    · simp [linkArc, linkUp, htail]
    · simp [linkArc, linkUp, htail]
  cases rising
  · rw [linkArc_false, t.reduced_reverse, hup, neg_zero]
  · exact hup

/-- The arcs of the tree have no reduced cost. -/
theorem reduced_of_tree (h : Spanning t b) {r : ResidualArc (m + n)}
    (hs : b.state[r.arc] = .tree) : t.reduced t.cost b.potential r = 0 := by
  obtain ⟨v, hv⟩ := (h.state_tree _).mp hs
  have hzero := reduced_linkArc h v true
  rcases ResidualArc.eq_or_eq_reverse (r := linkArc t b v true) (s := r) hv with rfl | rfl
  · exact hzero
  · rw [t.reduced_reverse, hzero, neg_zero]

/-- The reduced costs of the cycle add up to that of the entering arc, which is what a unit
around the cycle costs. -/
theorem priceOf_cyclePath (h : Spanning t b) (a : Fin (m + n)) :
    priceOf t.cost (cyclePath t b a) = t.reduced t.cost b.potential (entryArc b a) := by
  have hsum := (leads_cyclePath (t := t) h.toHung h.depths a).sum_reduced t.cost b.potential
  have hlinks : ∀ (vs : List (Fin n)) (rising : Bool),
      ((vs.map (linkArc t b · rising)).map (t.reduced t.cost b.potential)).sum = 0 := by
    intro vs rising
    induction vs with
    | nil => rfl
    | cons v vs ih =>
        rw [List.map_cons, List.map_cons, List.sum_cons, ih, reduced_linkArc h, add_zero]
  rw [cyclePath, List.map_cons, List.sum_cons, List.map_append, List.sum_append, hlinks, hlinks]
    at hsum
  rw [cyclePath]
  omega

end Costs

theorem Consistent.room_entryArc (h : Consistent t supply b) (ha : b.state[a] ≠ .tree) :
    t.room b.flow (entryArc b a) = t.cap[a] := by
  cases hs : b.state[a] with
  | tree => exact absurd hs ha
  | lower => simp [Network.room, entryArc, hs, h.lower_eq a hs]
  | upper => simp [Network.room, entryArc, hs, h.upper_eq a hs]

/-- An arc outside the tree has no room against the direction in which its flow can change. -/
theorem Consistent.room_reverse_entryArc (h : Consistent t supply b) (ha : b.state[a] ≠ .tree) :
    t.room b.flow (entryArc b a).reverse = 0 := by
  have hadd := t.room_add_reverse b.flow (entryArc b a)
  have harc : (entryArc b a).arc = a := rfl
  rw [h.room_entryArc ha, harc] at hadd
  omega

theorem Consistent.leaving_spec (h : Consistent t supply b) (ha : b.state[a] ≠ .tree) :
    (∃ r, Leaves t b a r ∧ r.arc = (leaving t b a).arc ∧
      t.room b.flow r = (leaving t b a).amount) ∧
    ∀ r ∈ cyclePath t b a, (leaving t b a).amount ≤ t.room b.flow r ∧
      (b.bland → t.room b.flow r = (leaving t b a).amount → (leaving t b a).arc ≤ r.arc) :=
  NetworkSimplex.leaving_spec (h.room_entryArc ha)

theorem Consistent.amount_nonneg (h : Consistent t supply b) (ha : b.state[a] ≠ .tree) :
    0 ≤ (leaving t b a).amount := by
  obtain ⟨⟨r, -, -, hr⟩, -⟩ := h.leaving_spec ha
  rw [← hr]
  exact h.within.room_nonneg r

/-- The flow that a pivot leaves around its cycle, also if it changes none. -/
theorem Consistent.shifted_eq (h : Consistent t supply b) (ha : b.state[a] ≠ .tree) :
    (if 0 < (leaving t b a).amount then
        shiftCycle t b a (cycleOf t b a) (leaving t b a).amount else b) =
      { b with flow := sendAll b.flow (cyclePath t b a) (leaving t b a).amount } := by
  have hnonneg := h.amount_nonneg ha
  split_ifs with hpos
  · exact shiftCycle_eq a _
  · have hzero : (leaving t b a).amount = 0 := by omega
    rw [hzero, sendAll_zero]

/-- A pivot in terms of residual arcs. -/
theorem pivot_eq (h : Consistent t supply b) (ha : b.state[a] ≠ .tree) :
    pivot t b a =
      if noCapacity / 2 < (leaving t b a).amount then .unbounded
      else if (leaving t b a).amount = 0 then .degenerate (pivoted t b a)
      else .progress (pivoted t b a) := by
  show (if noCapacity / 2 < (leaving t b a).amount then Pivot.unbounded
      else if (leaving t b a).amount = 0 then .degenerate (exchange t
          (if 0 < (leaving t b a).amount then
            shiftCycle t b a (cycleOf t b a) (leaving t b a).amount else b) a
          (cycleOf t b a) (leaving t b a))
        else .progress (exchange t
          (if 0 < (leaving t b a).amount then
            shiftCycle t b a (cycleOf t b a) (leaving t b a).amount else b) a
          (cycleOf t b a) (leaving t b a))) = _
  rw [h.shifted_eq ha]
  rfl

/-- What a pivot does to a consistent basis. -/
structure Pivoted (t : Tableau n m α) (b : Basis n m α) (a : Fin (m + n))
    (b' : Basis n m α) : Prop where
  spanning : Spanning t b'
  flow_eq : b'.flow = sendAll b.flow (cyclePath t b a) (leaving t b a).amount
  bland_eq : b'.bland = b.bland
  cursor_eq : b'.cursor = b.cursor
  /-- The entering arc itself may have the least room; then it goes to its other bound. -/
  state_self : (leaving t b a).arc = a → b'.state = b.state.set a b.state[a].opposite
  state_eq : (leaving t b a).arc ≠ a →
    b'.state = (b.state.set a .tree).set (leaving t b a).arc (restingState b' (leaving t b a).arc)

omit [Scalar α] in
theorem restingState_ne_tree (b : Basis n m α) (x : Fin (m + n)) : restingState b x ≠ .tree := by
  unfold restingState
  split <;> simp

theorem Spanning.link_ne (h : Spanning t b) (ha : b.state[a] ≠ .tree) (v : Fin n) :
    b.link[v] ≠ a :=
  fun hv => ha ((h.state_tree a).mpr ⟨v, hv⟩)

/-- The entering arc goes from one bound to the other. -/
theorem pivoted_self (h : Consistent t supply b) (ha : b.state[a] ≠ .tree)
    (hplace : (leaving t b a).place = none) (harc : (leaving t b a).arc = a) :
    Pivoted t b a (pivoted t b a) := by
  have heq : pivoted t b a = { b with
      flow := sendAll b.flow (cyclePath t b a) (leaving t b a).amount
      state := b.state.set a b.state[a].opposite } := by
    simp only [pivoted, exchange, hplace]
  rw [heq]
  refine ⟨⟨⟨h.joins, h.mem_children, h.linked, h.exists_depths⟩, h.depth_root,
    h.potential_root, h.settled, fun x => ?_⟩, rfl, rfl, rfl, fun _ => rfl,
    fun hne => absurd harc hne⟩
  show (b.state.set a b.state[a].opposite)[x] = .tree ↔ _
  by_cases hx : a = x
  · subst hx
    have hopp : b.state[a].opposite ≠ .tree := by
      cases hs : b.state[a] <;> simp_all [ArcState.opposite]
    simpa [hopp] using h.toSpanning.link_ne ha
  · rw [Table.getElem_set_of_ne _ _ hx]
    exact h.state_tree x

/-- The nodes of one side of a cycle. -/
def Cycle.side (c : Cycle n) (onFirst : Bool) : List (Fin n) :=
  if onFirst then c.firstSide else c.secondSide

/-- The end of the entering arc on the other side. -/
def Cycle.outer (c : Cycle n) (onFirst : Bool) : Fin (n + 1) :=
  if onFirst then c.second else c.first

/-- Both sides of the cycle lead up to one node, and the entering arc joins their ends. -/
theorem exists_sides (h : Spanning t b) (a : Fin (m + n)) (onFirst : Bool) :
    ∃ inner other top, Ascent b.parent inner ((cycleOf t b a).side onFirst) top ∧
      Ascent b.parent ((cycleOf t b a).outer onFirst) other top ∧
      ((cycleOf t b a).side onFirst).Disjoint other ∧
      Joins t a inner ((cycleOf t b a).outer onFirst) := by
  obtain ⟨top, hfirst, hsecond, hdis⟩ := cycleOf_spec (t := t) h.depths a
  have hends : Joins t a (cycleOf t b a).first (cycleOf t b a).second := by
    by_cases hs : b.state[a] = .lower <;> simp [Joins, cycleOf, hs]
  cases onFirst with
  | true => exact ⟨_, _, _, hfirst, hsecond, hdis, hends⟩
  | false => exact ⟨_, _, _, hsecond, hfirst, hdis.symm, hends.symm⟩

/-- The basis that a pivot refreshes: the flow has changed and the stem hangs from the entering
arc. -/
def grafted {α : Type} (t : Tableau n m α) (b : Basis n m α) (a : Fin (m + n)) (v : Fin n)
    (onFirst : Bool) : Basis n m α :=
  rehang
    { b with
      flow := sendAll b.flow (cyclePath t b a) (leaving t b a).amount
      state := (b.state.set a .tree).set (leaving t b a).arc
        (restingState
          { b with flow := sendAll b.flow (cyclePath t b a) (leaving t b a).amount }
          (leaving t b a).arc) }
    (stem ((cycleOf t b a).side onFirst) v) ((cycleOf t b a).outer onFirst) a

/-- A pivot in which a link leaves ends with a refresh. -/
theorem pivoted_eq {v : Fin n} {onFirst : Bool} (hplace : (leaving t b a).place = some (v, onFirst)) :
    pivoted t b a = Basis.refresh t (grafted t b a v onFirst) (n + 1)
      (((cycleOf t b a).side onFirst).take 1) := by
  simp only [pivoted, exchange, hplace]
  rfl

/-- The link of a node on one side of the cycle leaves, and the side is hung on the other end of
the entering arc. -/
theorem pivoted_link (h : Consistent t supply b) (ha : b.state[a] ≠ .tree) {v : Fin n}
    {onFirst : Bool} (hv : v ∈ (cycleOf t b a).side onFirst)
    (hplace : (leaving t b a).place = some (v, onFirst)) (harc : b.link[v] = (leaving t b a).arc) :
    Pivoted t b a (pivoted t b a) := by
  obtain ⟨inner, other, top, hside, hother, hdis, hjoins⟩ := exists_sides h.toSpanning a onFirst
  obtain ⟨b', heq, hflow, hstate, hbland, hcursor, hspan⟩ :=
    exists_exchange (h.toSpanning.with_flow
      (sendAll b.flow (cyclePath t b a) (leaving t b a).amount)) hside hother hdis hjoins ha hv
      (restingState_ne_tree
        { b with flow := sendAll b.flow (cyclePath t b a) (leaving t b a).amount }
        (leaving t b a).arc)
  have heq' : pivoted t b a = b' := by
    rw [← heq, pivoted_eq hplace]
    simp only [grafted, harc]
  rw [heq']
  refine ⟨hspan, hflow, hbland, hcursor,
    fun hself => absurd (harc.trans hself) (h.toSpanning.link_ne ha v), fun _ => ?_⟩
  rw [hstate, restingState, restingState, hflow]
  simp only [harc]

/-- Where the leaving arc is found. -/
theorem Consistent.place_cases (h : Consistent t supply b) (ha : b.state[a] ≠ .tree) :
    ((leaving t b a).place = none ∧ (leaving t b a).arc = a) ∨
      ∃ v onFirst, (leaving t b a).place = some (v, onFirst) ∧
        v ∈ (cycleOf t b a).side onFirst ∧ b.link[v] = (leaving t b a).arc := by
  obtain ⟨⟨r, hr, harc, -⟩, -⟩ := h.leaving_spec ha
  rcases hr with ⟨hplace, rfl⟩ | ⟨v, hv, hplace, rfl⟩ | ⟨v, hv, hplace, rfl⟩
  · exact Or.inl ⟨hplace, harc.symm⟩
  · exact Or.inr ⟨v, true, hplace, hv, harc⟩
  · exact Or.inr ⟨v, false, hplace, hv, harc⟩

/-- What a pivot refreshes is a tree that waits for it, and the potentials have not changed yet. -/
theorem Consistent.layered_grafted (h : Consistent t supply b) (ha : b.state[a] ≠ .tree) {v : Fin n}
    {onFirst : Bool} (hplace : (leaving t b a).place = some (v, onFirst)) :
    (∃ depth k, Layered t (grafted t b a v onFirst) depth k
      (((cycleOf t b a).side onFirst).take 1)) ∧
      (grafted t b a v onFirst).potential = b.potential := by
  obtain ⟨hnone, -⟩ | ⟨v', onFirst', hplace', hv, harc⟩ := h.place_cases ha
  · rw [hplace] at hnone
    cases hnone
  · rw [hplace] at hplace'
    cases hplace'
    obtain ⟨inner, other, top, hside, hother, hdis, hjoins⟩ := exists_sides h.toSpanning a onFirst
    obtain ⟨b', heq, hshape, ⟨depth, k, -, hlayered⟩, -⟩ :=
      layered_rehang (h.toSpanning.with_flow
        (sendAll b.flow (cyclePath t b a) (leaving t b a).amount)) hside hother hdis hjoins ha hv
        ((b.state.set a .tree).set (leaving t b a).arc
          (restingState
            { b with flow := sendAll b.flow (cyclePath t b a) (leaving t b a).amount }
            (leaving t b a).arc))
    have hgrafted : grafted t b a v onFirst = b' := heq
    rw [hgrafted]
    exact ⟨⟨depth, k, hlayered⟩, by rw [hshape]⟩

theorem pivoted_spec (h : Consistent t supply b) (ha : b.state[a] ≠ .tree) :
    Pivoted t b a (pivoted t b a) := by
  obtain ⟨hplace, harc⟩ | ⟨v, onFirst, hplace, hv, harc⟩ := h.place_cases ha
  · exact pivoted_self h ha hplace harc
  · exact pivoted_link h ha hv hplace harc

/-- An arc outside the tree that neither enters nor leaves is not on the cycle. -/
theorem Consistent.notMem_cyclePath (h : Consistent t supply b) {x : Fin (m + n)} (hx : x ≠ a)
    (hs : b.state[x] ≠ .tree) : x ∉ (cyclePath t b a).map (·.arc) := by
  intro hmem
  obtain ⟨r, hr, rfl⟩ := List.mem_map.mp hmem
  exact hs (state_of_mem_cyclePath h.toSpanning hr hx)

/-- The leaving arc has no room left in the direction of the cycle. -/
theorem Consistent.flow_leaving (h : Consistent t supply b) (ha : b.state[a] ≠ .tree) :
    ∃ r ∈ cyclePath t b a, r.arc = (leaving t b a).arc ∧ t.room (pivoted t b a).flow r = 0 := by
  obtain ⟨⟨r, hr, harc, hroom⟩, -⟩ := h.leaving_spec ha
  refine ⟨r, hr.mem_cyclePath, harc, ?_⟩
  rw [(pivoted_spec h ha).flow_eq, t.room_sendAll_self (nodup_cyclePath h.toSpanning ha)
    hr.mem_cyclePath, hroom, sub_self]

/-- An arc outside the tree carries nothing or all it can. -/
def Rests (t : Tableau n m α) (b : Basis n m α) (x : Fin (m + n)) : Prop :=
  (b.state[x] = .lower → b.flow[x] = 0) ∧ (b.state[x] = .upper → b.flow[x] = t.cap[x])

omit [Scalar α] in
theorem rests_of_tree {x : Fin (m + n)} (h : b.state[x] = .tree) : Rests t b x :=
  ⟨fun hs => (by simp [h] at hs), fun hs => (by simp [h] at hs)⟩

/-- The entering arc has no room left in the direction of its entry if it leaves itself. -/
theorem Consistent.rests_entering (h : Consistent t supply b) (ha : b.state[a] ≠ .tree)
    (hself : (leaving t b a).arc = a) : Rests t (pivoted t b a) a := by
  have hspec := pivoted_spec h ha
  obtain ⟨r, hr, harc, hroom⟩ := h.flow_leaving ha
  rw [eq_entryArc_of_mem h.toSpanning ha hr (harc.trans hself)] at hroom
  unfold Rests
  rw [hspec.state_self hself, Table.getElem_set_self]
  cases hs : b.state[a] with
  | tree => exact absurd hs ha
  | lower =>
      simp only [Network.room, entryArc, hs, ne_eq, not_true, decide_false,
        Bool.false_eq_true, if_false] at hroom
      exact ⟨by simp [ArcState.opposite], fun _ => by omega⟩
  | upper =>
      simp only [Network.room, entryArc, hs, ne_eq, reduceCtorEq, not_false_eq_true,
        decide_true, if_true] at hroom
      exact ⟨fun _ => hroom, by simp [ArcState.opposite]⟩

/-- A link that leaves rests at the bound that its flow has come to. -/
theorem Consistent.rests_leaving (h : Consistent t supply b) (ha : b.state[a] ≠ .tree)
    (hself : (leaving t b a).arc ≠ a) : Rests t (pivoted t b a) (leaving t b a).arc := by
  obtain ⟨r, -, harc, hroom⟩ := h.flow_leaving ha
  unfold Rests
  rw [(pivoted_spec h ha).state_eq hself, Table.getElem_set_self, restingState]
  by_cases hzero : (pivoted t b a).flow[(leaving t b a).arc] = 0
  · simp [hzero]
  · have hfull : (pivoted t b a).flow[(leaving t b a).arc] = t.cap[(leaving t b a).arc] := by
      rw [← harc] at hzero ⊢
      unfold Network.room at hroom
      split at hroom
      · exact absurd hroom hzero
      · omega
    simp [hfull]

/-- An arc that neither enters nor leaves keeps its state, and outside the tree its flow. -/
theorem Consistent.rests_other (h : Consistent t supply b) (ha : b.state[a] ≠ .tree)
    {x : Fin (m + n)} (hxa : x ≠ a) (hx : x ≠ (leaving t b a).arc) :
    Rests t (pivoted t b a) x := by
  have hspec := pivoted_spec h ha
  have hstate : (pivoted t b a).state[x] = b.state[x] := by
    by_cases hself : (leaving t b a).arc = a
    · rw [hspec.state_self hself, Table.getElem_set_of_ne _ _ (Ne.symm hxa)]
    · rw [hspec.state_eq hself, Table.getElem_set_of_ne _ _ (Ne.symm hx),
        Table.getElem_set_of_ne _ _ (Ne.symm hxa)]
  have hflow : b.state[x] ≠ .tree → (pivoted t b a).flow[x] = b.flow[x] := by
    intro hs
    rw [hspec.flow_eq, getElem_sendAll_of_notMem (h.notMem_cyclePath hxa hs)]
  unfold Rests
  rw [hstate]
  constructor
  · intro hs
    rw [hflow (by simp [hs]), h.lower_eq x hs]
  · intro hs
    rw [hflow (by simp [hs]), h.upper_eq x hs]

theorem Consistent.rests_pivoted (h : Consistent t supply b) (ha : b.state[a] ≠ .tree)
    (x : Fin (m + n)) : Rests t (pivoted t b a) x := by
  by_cases hself : (leaving t b a).arc = a
  · by_cases hxa : x = a
    · subst hxa
      exact h.rests_entering ha hself
    · exact h.rests_other ha hxa (by rwa [hself])
  · by_cases hx : x = (leaving t b a).arc
    · subst hx
      exact h.rests_leaving ha hself
    · by_cases hxa : x = a
      · subst hxa
        apply rests_of_tree
        rw [(pivoted_spec h ha).state_eq hself, Table.getElem_set_of_ne _ _ hself,
          Table.getElem_set_self]
      · exact h.rests_other ha hxa hx

/-- A pivot keeps the basis consistent. -/
theorem Consistent.pivoted (h : Consistent t supply b) (ha : b.state[a] ≠ .tree) :
    Consistent t supply (pivoted t b a) := by
  have hspec := pivoted_spec h ha
  refine ⟨hspec.spanning, ?_, fun x => (h.rests_pivoted ha x).1,
    fun x => (h.rests_pivoted ha x).2, fun v => ?_⟩
  · rw [hspec.flow_eq]
    exact h.within.sendAll (nodup_cyclePath h.toSpanning ha).of_map (h.amount_nonneg ha)
      fun r hr => ((h.leaving_spec ha).2 r hr).1
  · rw [hspec.flow_eq, Network.outflow_sendAll_cycle (leads_cyclePath h.toHung h.depths a),
      h.balanced v]

/-- A pivot changes the cost by the amount times the reduced cost of the entering arc. -/
theorem costOf_pivoted [ExactCosts] {t : Tableau n m Int} {b : Basis n m Int}
    (h : Consistent t supply b) (ha : b.state[a] ≠ .tree) :
    costOf t.cost (NetworkSimplex.pivoted t b a).flow = costOf t.cost b.flow +
      (leaving t b a).amount * t.reduced t.cost b.potential (entryArc b a) := by
  rw [(pivoted_spec h ha).flow_eq, costOf_sendAll, priceOf_cyclePath h.toSpanning]

end NetworkFlow.NetworkSimplex
