import NetworkFlow.Proofs.NetworkSimplex.Amounts

/-!
# The bases that pivots lead to

A basis is `Visited` if pivots on entering arcs that the search finds lead to it from
the first one. The rule of the search is that of the tableau, and the rule that cannot
cycle may take over after any pivot, not only when a run of the network simplex makes
it do so.

What holds of these bases, whatever the artificial arcs cost, is said here by what
their fields hold (`Coherent`): pointers, depths, states, flows and reduced costs of
one spanning tree.

## Main results

* `Reached.visited`: a run passes no other bases.
* `Visited.consistent`: they are consistent.
* `pivots_keep_tree`: they are coherent, and a pivot changes the cost of the flow by
  what its amount saves on the entering arc.
-/

namespace NetworkFlow.NetworkSimplex

open Finset
open scoped ExactCosts

variable {n m : Nat}

section Steps

variable {α : Type}

/-- The basis after a pivot, unless the flow can change without bound. -/
def Pivot.basis? : Pivot n m α → Option (Basis n m α)
  | .unbounded => none
  | .progress b => some b
  | .degenerate b => some b

variable [Scalar α]

/-- The search finds an arc, and bringing it into the tree leads to another basis. -/
structure Enters (t : Tableau n m α) (b : Basis n m α) (a : Fin (m + n)) (b' : Basis n m α) :
    Prop where
  found : (findEntering t b).1 = some a
  result : (pivot t { b with cursor := (findEntering t b).2 } a).basis? = some b'

/-- The bases that pivots lead to from the first one, under the rule of the tableau or the one
that cannot cycle. -/
inductive Visited (t : Tableau n m α) (p : Problem n m α) : Basis n m α → Prop where
  | start : Visited t p (Basis.start t p)
  | step {b b' : Basis n m α} {a : Fin (m + n)} (h : Visited t p b) (henters : Enters t b a b') :
      Visited t p b'
  | adopt {b : Basis n m α} (h : Visited t p b) : Visited t p { b with bland := true }

variable {t : Tableau n m α} {supply : Table Int n} {b b' : Basis n m α} {a : Fin (m + n)}

theorem Enters.state_ne_tree (h : Enters t b a b') : b.state[a] ≠ .tree :=
  state_ne_tree_of_violation (isSome_of_findEntering h.found)

/-- A pivot that leads to a basis leads to the one in which the leaving arc has been exchanged. -/
theorem Consistent.eq_pivoted (hc : Consistent t supply b) (ha : b.state[a] ≠ .tree)
    (h : (pivot t b a).basis? = some b') : b' = NetworkSimplex.pivoted t b a := by
  rw [pivot_eq hc ha] at h
  split_ifs at h <;> cases h <;> rfl

theorem Enters.eq_pivoted (hc : Consistent t supply b) (h : Enters t b a b') :
    b' = pivoted t { b with cursor := (findEntering t b).2 } a :=
  (hc.with_cursor (findEntering t b).2).eq_pivoted h.state_ne_tree h.result

/-- Bringing an arc into the tree leads to another basis unless the flow can change without
bound. -/
theorem Consistent.enters (hc : Consistent t supply b) (hfound : (findEntering t b).1 = some a)
    (hle : (leaving t b a).amount ≤ noCapacity / 2) :
    Enters t b a (NetworkSimplex.pivoted t { b with cursor := (findEntering t b).2 } a) := by
  have ha := state_ne_tree_of_violation (isSome_of_findEntering hfound)
  refine ⟨hfound, ?_⟩
  rw [pivot_eq (hc.with_cursor (findEntering t b).2) ha, leaving_with_cursor, if_neg (by omega)]
  split <;> rfl

theorem Enters.consistent (hc : Consistent t supply b) (h : Enters t b a b') :
    Consistent t supply b' := by
  rw [h.eq_pivoted hc]
  exact (hc.with_cursor _).pivoted h.state_ne_tree

variable {p : Problem n m α} {rule : PivotRule} {dear : α}

theorem Visited.consistent (hp : p.amounts.Prepared)
    (h : Visited (Tableau.ofProblem p rule dear) p b) :
    Consistent (Tableau.ofProblem p rule dear) p.supply b := by
  induction h with
  | start => exact consistent_start hp rule dear
  | step _ henters ih => exact henters.consistent ih
  | adopt _ ih => exact ih.with_rule true _

/-- Counting a degenerate pivot changes nothing in the basis but that the rule that cannot cycle
may take over. -/
theorem Visited.of_countDegenerate (h : Visited t p b) (s : Progress n m α) :
    Visited t p (countDegenerate s b).basis := by
  have hadopt : ∀ adopt : Bool, Visited t p { b with bland := b.bland || adopt } := by
    intro adopt
    cases adopt with
    | false =>
        rw [Bool.or_false]
        exact h
    | true =>
        rw [Bool.or_true]
        exact h.adopt
  exact hadopt _

/-- A step of the run is a pivot, after which the rule that cannot cycle may take over. -/
theorem Visited.of_pivotStep {s s' : Progress n m α} (h : Visited t p s.basis)
    (hstep : pivotStep t s = .next s') : Visited t p s'.basis := by
  have hcases := pivotStep_cases t s
  rw [hstep] at hcases
  cases hcases with
  | progress hfind hpivot => exact h.step ⟨hfind, congrArg Pivot.basis? hpivot⟩
  | degenerate hfind hpivot =>
      exact (h.step ⟨hfind, congrArg Pivot.basis? hpivot⟩).of_countDegenerate s

/-- A run passes no other bases. -/
theorem Reached.visited {s : Progress n m α} (h : Reached p rule dear s) :
    Visited (Tableau.ofProblem p rule dear) p s.basis := by
  induction h with
  | start => exact .start
  | step _ hstep ih => exact ih.of_pivotStep hstep

end Steps

variable [inst : ExactCosts] {t : Tableau n m Int} {supply : Table Int n} {b b' : Basis n m Int}
  {a : Fin (m + n)}

/-- The fields of a basis are those of one spanning tree with a flow. -/
structure Coherent (t : Tableau n m Int) (supply : Table Int n) (b : Basis n m Int) : Prop where
  /-- The parents form a tree: from every node they lead up to the root. -/
  ascent : ∀ v : Fin n, ∃ vs, Ascent b.parent (below v) vs (root n)
  /-- Every node has an arc of its own, which joins it to its parent. -/
  joins : ∀ v : Fin n, Joins t b.link[v] (below v) b.parent[v]
  link_injective : ∀ u v : Fin n, b.link[u] = b.link[v] → u = v
  /-- The arcs in the state of a tree arc are these arcs. -/
  state_tree : ∀ a : Fin (m + n), b.state[a] = .tree ↔ ∃ v : Fin n, b.link[v] = a
  /-- A node is on the list of its parent and on no other one. -/
  mem_children : ∀ (u : Fin (n + 1)) (v : Fin n), v ∈ b.children[u] ↔ b.parent[v] = u
  /-- No list has a node twice. -/
  nodup_children : ∀ u : Fin (n + 1), b.children[u].Nodup
  /-- Each node of a list points to the ones before and after it, if there are such nodes. -/
  neighbours : ∀ (u : Fin (n + 1)) (v : Fin n) (before after : List (Fin n)),
    b.children[u] = before ++ v :: after →
      b.children.prev[v] = before.getLast? ∧ b.children.next[v] = after.head?
  depth_root : b.depth[root n] = 0
  depth_below : ∀ v : Fin n, b.depth[below v] = b.depth[b.parent[v]] + 1
  reduced_tree : ∀ a : Fin (m + n), b.state[a] = .tree → reducedCost t b a = 0
  within : ∀ a : Fin (m + n), 0 ≤ b.flow[a] ∧ b.flow[a] ≤ t.cap[a]
  lower_eq : ∀ a : Fin (m + n), b.state[a] = .lower → b.flow[a] = 0
  upper_eq : ∀ a : Fin (m + n), b.state[a] = .upper → b.flow[a] = t.cap[a]
  /-- What leaves a node, artificial arcs included, meets its supply; the root has none. -/
  balanced : ∀ v : Fin n, t.outflow b.flow (below v) = supply[v]
  balanced_root : t.outflow b.flow (root n) = 0

/-- If the supplies cancel out, nothing leaves or enters the tableau at the root. -/
theorem Consistent.outflow_root (h : Consistent t supply b) (hsum : ∑ v : Fin n, supply[v] = 0) :
    t.outflow b.flow (root n) = 0 := by
  have htotal := t.sum_outflow b.flow
  rw [Fin.sum_univ_castSucc] at htotal
  have hbelow : ∑ v : Fin n, t.outflow b.flow (Fin.castSucc v) = ∑ v : Fin n, supply[v] :=
    sum_congr rfl fun v _ => h.balanced v
  rw [hbelow, hsum, zero_add] at htotal
  exact htotal

theorem Consistent.coherent (h : Consistent t supply b) (hsum : ∑ v : Fin n, supply[v] = 0) :
    Coherent t supply b where
  ascent v := h.depths.exists_ascent (below v)
  joins := h.joins
  link_injective _ _ := h.link_injective
  state_tree := h.state_tree
  mem_children := h.mem_children
  nodup_children := h.linked.nodup
  neighbours _ _ _ _ hlist := h.linked.neighbours hlist
  depth_root := h.depth_root
  depth_below v := (h.settled v).1
  reduced_tree a ha := by
    rw [reducedCost_eq_reduced]
    exact reduced_of_tree h.toSpanning ha
  within := h.within
  lower_eq := h.lower_eq
  upper_eq := h.upper_eq
  balanced := h.balanced
  balanced_root := h.outflow_root hsum

/-- A pivot saves its amount times what a unit saves on the entering arc. -/
theorem Enters.costOf_eq (htol : t.tolerance = 0) (hc : Consistent t supply b)
    (h : Enters t b a b') :
    costOf t.cost b'.flow =
      costOf t.cost b.flow - |reducedCost t b a| * (leaving t b a).amount := by
  have hviolates := (isSome_violation htol a).mp (isSome_of_findEntering h.found)
  rw [h.eq_pivoted hc, costOf_pivoted (hc.with_cursor (findEntering t b).2) h.state_ne_tree,
    leaving_with_cursor]
  change _ + _ * t.reduced t.cost b.potential (entryArc b a) = _
  rw [hviolates.reduced_eq]
  ring

end NetworkFlow.NetworkSimplex

namespace NetworkFlow.Configuration

open NetworkSimplex

variable {w cw : Width} {c : Configuration w (Word cw)}
  {p : Problem c.nodes c.arcs (Cost.Wide (Word cw))}

/-- On every problem that `prepare` returns, the fields of a basis to which pivots lead from the
first one are those of one spanning tree with a flow, and the next pivot lowers the cost of the
flow, artificial arcs included, by its amount times the reduced cost of the entering arc. This
is so under every rule and whatever the artificial arcs cost. -/
theorem pivots_keep_tree [ExactCosts] (hp : c.prepare.outcome = .ok (some p)) (rule : PivotRule)
    (dear : Int) {b : Basis c.nodes c.arcs Int}
    (hb : Visited (Tableau.ofProblem p.exact rule dear) p.exact b) :
    Coherent (Tableau.ofProblem p.exact rule dear) p.exact.supply b ∧
      ∀ a b', Enters (Tableau.ofProblem p.exact rule dear) b a b' →
        costOf (Tableau.ofProblem p.exact rule dear).cost b'.flow =
          costOf (Tableau.ofProblem p.exact rule dear).cost b.flow -
            |reducedCost (Tableau.ofProblem p.exact rule dear) b a| *
              (leaving (Tableau.ofProblem p.exact rule dear) b a).amount := by
  have hprepared := c.prepared_of_prepare hp
  have hconsistent := hb.consistent hprepared.amounts
  exact ⟨hconsistent.coherent hprepared.sum_supply, fun a b' henters =>
    henters.costOf_eq hprepared.tolerance_eq hconsistent⟩

/-- On `parallelArcs`, the first pivot takes a unit over the cheaper arc, which saves `23`. -/
theorem pivots_keep_tree_parallelArcs :
    letI := ExactCosts.ofWidth .bits128
    let t := Tableau.ofProblem parallelProblem.exact .blockSearch 12
    parallelArcs.prepare.outcome = .ok (some parallelProblem) ∧
      ∃ b, Enters t (Basis.start t parallelProblem.exact) 0 b ∧
        Coherent t parallelProblem.exact.supply b ∧ costOf t.cost b.flow = 48 - 23 := by
  let _ := ExactCosts.ofWidth .bits128
  let t := Tableau.ofProblem parallelProblem.exact .blockSearch 12
  let start := Basis.start t parallelProblem.exact
  have hfound : (findEntering t start).1 = some 0 := by decide +kernel
  have hamount : (leaving t start 0).amount = 1 := by decide +kernel
  have hcost : costOf t.cost start.flow = 48 := by decide +kernel
  have hsaves : reducedCost t start 0 = -23 := by decide +kernel
  have hstart : Consistent t parallelProblem.exact.supply start :=
    consistent_start (parallelArcs.prepared_of_prepare prepare_parallelArcs).amounts _ _
  have henters := hstart.enters hfound (by rw [hamount]; decide)
  have hbefore := pivots_keep_tree prepare_parallelArcs .blockSearch 12 .start
  have hafter := pivots_keep_tree prepare_parallelArcs .blockSearch 12 (Visited.start.step henters)
  have hsaved : costOf t.cost start.flow - |reducedCost t start 0| * (leaving t start 0).amount =
      48 - 23 := by
    rw [hcost, hsaves, hamount]
    rfl
  exact ⟨prepare_parallelArcs, _, henters, hafter.1, (hbefore.2 _ _ henters).trans hsaved⟩

end NetworkFlow.Configuration
