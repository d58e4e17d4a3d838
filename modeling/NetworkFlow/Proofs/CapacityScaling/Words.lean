import NetworkFlow.Proofs.CapacityScaling.Search
import NetworkFlow.CapacityScaling.Solve
import NetworkFlow.Proofs.Lockstep

/-!
# Capacity scaling on words

The words of a run are the potentials and, within a search, the distances. What is computed from them
decides which way is used and how far the potentials of the settled nodes fall. As long as the
sums fit, a search on words settles the nodes that it settles on integers, at the same distances,
and finds the same way. The amounts do not depend on costs otherwise, and the deltas not at all.
So a run on words is the run on integers unless one of its operations leaves the range.

## Main results

* `nearestDeficit_exact`: a search whose operations fit is the search on integers.
* `augment_exact`: so is the use of a way.
* `lockstep_solve`: the run on words is in lockstep with the run on integers.
-/

namespace NetworkFlow.CapacityScaling

open scoped ExactCosts

variable {n m : Nat} {w : Width}

/-- The problem with its costs read as integers. -/
def Indexed.exact (p : Indexed n m (Word w)) : Indexed n m Int :=
  { p.toProblem.exact with rows := p.rows }

/-- The state with its potentials read as integers. -/
def State.exact (st : State n m (Word w)) : State n m Int :=
  { st with potential := st.potential.map (·.val) }

/-- A node with a distance, the distance read as an integer. -/
def exactEntry (x : Fin n × Word w) : Fin n × Int := (x.1, x.2.val)

/-- The search with its distances read as integers. -/
def Search.exact (q : Search n m (Word w)) : Search n m Int where
  dist := q.dist.map (Option.map (·.val))
  pred := q.pred
  settled := q.settled
  order := q.order.map exactEntry

/-- The way with its distances read as integers. -/
def Route.exact (way : Route n m (Word w)) : Route n m Int where
  target := way.target
  dist := way.dist.val
  path := way.path
  settled := way.settled.map exactEntry

@[simp] theorem potential_exact (st : State n m (Word w)) (v : Fin n) :
    st.exact.potential[v] = st.potential[v].val := by
  simp [State.exact]

@[simp] theorem dist_exact (q : Search n m (Word w)) (v : Fin n) :
    q.exact.dist[v] = q.dist[v].map (·.val) := by
  simp [Search.exact]

section Search

variable [inst : ExactCosts] {p : Indexed n m (Word w)} {st : State n m (Word w)} {s : Fin n}
  {delta : Int} {q : Search n m (Word w)} {r : ResidualArc m}

omit inst in
theorem val_reducedCost (h : ∀ op ∈ p.reducedCostOperations p.cost st.potential r, op.Fits) :
    (p.reducedCost p.cost st.potential r).val = p.exact.reduced p.exact.cost st.exact.potential r :=
  Problem.val_reducedCost h

theorem val_length (h : ∀ op ∈ p.reducedCostOperations p.cost st.potential r, op.Fits) :
    (length p st r).val = length p.exact st.exact r := by
  have hval := val_reducedCost h
  unfold length
  simp only [word_lt_iff, hval, val_zero, reducedCost_eq, scalar_lt_iff, scalar_zero_eq]
  split
  · rfl
  · exact hval

theorem nearer_exact (q : Search n m (Word w)) (best : Option (Fin n × Word w)) (v : Fin n) :
    nearer q.exact (best.map exactEntry) v = (nearer q best v).map exactEntry := by
  unfold nearer
  rw [dist_exact, show q.exact.settled[v] = q.settled[v] from rfl]
  cases q.settled[v] with
  | true => rfl
  | false =>
      cases q.dist[v] with
      | none => rfl
      | some d =>
          rcases best with _ | ⟨u, b⟩
          · rfl
          · simp only [Option.map_some, exactEntry, word_lt_iff, scalar_lt_iff]
            split <;> rfl

/-- The nearest node on words is the nearest one on integers. -/
theorem nearest_exact (q : Search n m (Word w)) : q.exact.nearest = q.nearest.map exactEntry := by
  show (List.finRange n).foldl (nearer q.exact) (Option.map (exactEntry (w := w)) none) =
    ((List.finRange n).foldl (nearer q) none).map exactEntry
  exact List.foldl_hom (Option.map exactEntry) fun best v => nearer_exact q best v

theorem better_exact (candidate : Word w) (old : Option (Word w)) :
    better candidate.val (old.map (·.val)) = better candidate old := by
  cases old with
  | none => rfl
  | some old => simp [better, word_lt_iff, scalar_lt_iff]

/-- Looking along an arc on words is looking along it on integers, if what it takes fits. -/
theorem look_exact {d : Word w} (h : ∀ op ∈ lookOperations p st delta d q r, op.Fits) :
    (look p st delta d q r).exact = look p.exact st.exact delta d.val q.exact r := by
  have hskip : (p.exact.room st.exact.flow r < delta ∨ q.exact.settled[p.exact.target r]) ↔
      (p.room st.flow r < delta ∨ q.settled[p.target r]) := Iff.rfl
  unfold lookOperations at h
  unfold look
  simp only [hskip]
  split at h
  · rename_i hskipped
    rw [if_pos hskipped, if_pos hskipped]
  · rename_i hlooked
    obtain ⟨hreduced, hsum⟩ := List.forall_mem_append.mp h
    have hcandidate : d.val + length p.exact st.exact r = (d + length p st r).val := by
      rw [CostOperation.val_add (hsum _ (List.mem_singleton_self _)), val_length hreduced]
    have htarget : p.exact.target r = p.target r := rfl
    rw [if_neg hlooked, if_neg hlooked, scalar_add_eq, hcandidate, htarget, dist_exact,
      better_exact]
    split
    · unfold Search.exact
      rw [Table.map_set]
      rfl
    · rfl

omit inst in
theorem pathBack_exact (pred : Table (Option (ResidualArc m)) n) (count : Nat) (v : Fin n) :
    pathBack p.exact pred s count v = pathBack p pred s count v := by
  induction count generalizing v with
  | zero => rfl
  | succ count ih =>
      unfold pathBack
      split
      · rfl
      · cases pred[v] with
        | none => rfl
        | some r => exact congrArg _ (ih _)

/-- A search on words is the one on integers, if what it takes fits. -/
theorem searchFrom_exact {count : Nat}
    (h : ∀ op ∈ searchOperations p st s delta count q, op.Fits) :
    searchFrom p.exact st.exact s delta count q.exact =
      (searchFrom p st s delta count q).map Route.exact := by
  induction count generalizing q with
  | zero => rfl
  | succ count ih =>
      unfold searchOperations at h
      simp only [searchFrom, nearest_exact]
      cases hnearest : q.nearest with
      | none => rfl
      | some x =>
          obtain ⟨u, d⟩ := x
          rw [hnearest] at h
          simp only [Option.map_some, exactEntry] at h ⊢
          by_cases hfound : u ≠ s ∧ st.excess[u] ≤ -delta
          · rw [if_pos hfound, if_pos (show u ≠ s ∧ st.exact.excess[u] ≤ -delta from hfound),
              pathBack_exact]
            rfl
          · rw [if_neg hfound] at h
            rw [if_neg hfound, if_neg (show ¬ (u ≠ s ∧ st.exact.excess[u] ≤ -delta) from hfound)]
            obtain ⟨hlooks, hrest⟩ := List.forall_mem_append.mp h
            rw [← ih hrest, ← Array.foldl_toList, ← Array.foldl_toList,
              foldl_of_fits (e := Search.exact) (fun _ _ _ => look_exact) hlooks]
            rfl

theorem Search.start_exact (s : Fin n) :
    (Search.start s : Search n m (Word w)).exact = Search.start s := by
  unfold Search.exact Search.start
  rw [Table.map_set, Table.map_const, scalar_zero_eq]
  rfl

/-- The search for the nearest deficit on words is the one on integers, if what it takes fits. -/
theorem nearestDeficit_exact (h : ∀ op ∈ deficitOperations p st s delta, op.Fits) :
    nearestDeficit p.exact st.exact s delta =
      (nearestDeficit p st s delta).map Route.exact := by
  unfold nearestDeficit
  rw [← Search.start_exact]
  exact searchFrom_exact h

end Search

section Augment

variable [inst : ExactCosts] {p : Indexed n m (Word w)} {st : State n m (Word w)} {s : Fin n}
  {way : Route n m (Word w)}

/-- Potentials are lowered on words as on integers, if what that takes fits. -/
theorem shift_exact {potential : Table (Word w) n} {settled : List (Fin n × Word w)} {dist : Word w}
    (h : ∀ op ∈ shiftOperations potential settled dist, op.Fits) :
    (shift potential settled dist).map (·.val) =
      shift (potential.map (·.val)) (settled.map exactEntry) dist.val := by
  unfold shift
  rw [List.foldl_map]
  refine foldl_of_fits (e := Table.map (·.val)) (fun potential x _ hx => ?_) h
  have hsub := CostOperation.val_sub (hx _ List.mem_cons_self)
  have hadd := CostOperation.val_add (hx _ (List.mem_cons_of_mem _ List.mem_cons_self))
  simp only [exactEntry, scalar_add_eq, scalar_sub_eq, Table.getElem_map]
  rw [Table.map_set, hadd, hsub]

/-- Using a way on words is using it on integers, if what that takes fits. -/
theorem augment_exact (h : ∀ op ∈ shiftOperations st.potential way.settled way.dist, op.Fits) :
    (augment p st s way).exact = augment p.exact st.exact s way.exact := by
  unfold State.exact augment
  rw [shift_exact h]
  rfl

end Augment

section Saturate

variable [inst : ExactCosts] {p : Indexed n m (Word w)} {st : State n m (Word w)} {delta : Int}

omit inst in
theorem push_exact (st : State n m (Word w)) (r : ResidualArc m) (amount : Int) :
    (push p st r amount).exact = push p.exact st.exact r amount := by
  unfold push
  split <;> rfl

/-- Filling an arc on words is filling it on integers, if what that takes fits. -/
theorem saturate_exact {r : ResidualArc m}
    (h : ∀ op ∈ saturateOperations p delta st r, op.Fits) :
    (saturate p delta st r).exact = saturate p.exact delta st.exact r := by
  have hroom : p.exact.room st.exact.flow r = p.room st.flow r := rfl
  have htolerance : p.exact.tolerance = p.tolerance.val := rfl
  unfold saturateOperations at h
  unfold saturate
  simp only [hroom, htolerance, scalar_lt_iff, scalar_neg_eq, reducedCost_eq]
  split at h
  · rename_i hwide
    obtain ⟨hreduced, hneg⟩ := List.forall_mem_append.mp h
    simp only [← val_reducedCost hreduced,
      ← CostOperation.val_neg (hneg _ (List.mem_singleton_self _)), ← word_lt_iff]
    rw [apply_ite State.exact, push_exact]
  · rename_i hnarrow
    rw [if_neg fun hfill => hnarrow hfill.1, if_neg fun hfill => hnarrow hfill.1]

/-- Filling arcs on words is filling them on integers, if what that takes fits. -/
theorem saturateNegative_exact (h : ∀ op ∈ fillOperations p delta st, op.Fits) :
    (saturateNegative p delta st).exact = saturateNegative p.exact delta st.exact :=
  foldl_of_fits (e := State.exact) (fun _ _ _ => saturate_exact) h

/-- The first state on words is the one on integers. -/
theorem start_exact (p : Indexed n m (Word w)) : (start p).exact = start p.exact := by
  have hfill : ∀ st a, (fillNegative p st a).exact = fillNegative p.exact st.exact a := by
    intro st a
    have hcost : p.exact.cost[a] = p.cost[a].val := Table.getElem_map _ _ a
    unfold fillNegative
    simp only [word_lt_iff, scalar_lt_iff, hcost, scalar_zero_eq, val_zero]
    split
    · rw [push_exact]
      rfl
    · rfl
  have hblank : State.exact { flow := .const m 0, potential := .const n (0 : Word w), excess := p.supply } =
      { flow := .const m 0, potential := .const n 0, excess := p.exact.supply } := by
    unfold State.exact
    rw [Table.map_const, val_zero]
    rfl
  unfold start
  rw [scalar_zero_eq, ← hblank]
  exact (List.foldl_hom State.exact fun st a => (hfill st a).symm).symm

end Saturate

section Run

variable [inst : ExactCosts] {p : Indexed n m (Word w)} {delta : Int} {fuel factor : Nat}

/-- The state within a phase with its potentials read as integers. -/
def Progress.exact (g : Progress n m (Word w)) : Progress n m Int := { g with state := g.state.exact }

/-- The state before a phase, with its delta, with its potentials read as integers. -/
def exactPhase (s : Progress n m (Word w) × Int) : Progress n m Int × Int := (s.1.exact, s.2)

/-- Using one way on words is using it on integers, if what it takes fits. -/
theorem drainStep_exact {s : Fin n} {g : Progress n m (Word w)}
    (h : ∀ op ∈ drainOperations p delta s g, op.Fits) :
    drainStep p.exact delta s g.exact =
      (drainStep p delta s g).map Progress.exact Progress.exact := by
  have hexcess : g.exact.state.excess = g.state.excess := rfl
  unfold drainOperations at h
  unfold drainStep
  rw [hexcess]
  split at h
  · rename_i hsmall
    rw [if_pos hsmall, if_pos hsmall]
    rfl
  · rename_i hlarge
    obtain ⟨hsearch, hshift⟩ := List.forall_mem_append.mp h
    have hfound : nearestDeficit p.exact g.exact.state s delta =
        (nearestDeficit p g.state s delta).map Route.exact := nearestDeficit_exact hsearch
    rw [if_neg hlarge, if_neg hlarge, hfound]
    cases hway : nearestDeficit p g.state s delta with
    | none => rfl
    | some way =>
        rw [hway] at hshift
        have haugment : augment p.exact g.exact.state s way.exact =
            (augment p g.state s way).exact := (augment_exact hshift).symm
        simp only [Option.map_some, haugment]
        rfl

theorem lockstep_drain (g : Progress n m (Word w)) (s : Fin n) :
    Lockstep Progress.exact (drain p fuel delta g s) (drain p.exact fuel delta g.exact s) := by
  unfold drain
  exact .iterate (e := Progress.exact) (fun g => .checked drainStep_exact) fuel g

theorem lockstep_sweepStep (g : Progress n m (Word w)) :
    Lockstep (Step.map Progress.exact Progress.exact) (sweepStep p fuel delta g)
      (sweepStep p.exact fuel delta g.exact) := by
  have hdrain : Lockstep Progress.exact
      ((List.finRange n).foldlM (drain p fuel delta) { g with moved := false })
      ((List.finRange n).foldlM (drain p.exact fuel delta) { g.exact with moved := false }) :=
    .foldlM (fun g s => lockstep_drain g s) _ _
  refine hdrain.bind fun g _ => .of_eq_map ?_
  show Except.ok (if g.moved then _ else _) =
    Except.ok ((if g.moved then _ else _ : Step _ _).map _ _)
  split <;> rfl

/-- A phase on words is in lockstep with the phase on integers. -/
theorem lockstep_phase (g : Progress n m (Word w)) :
    Lockstep Progress.exact (phase p fuel delta g) (phase p.exact fuel delta g.exact) := by
  unfold phase
  refine .guard fun hfill => ?_
  have hfilled : saturateNegative p.exact delta g.exact.state =
      (saturateNegative p delta g.state).exact := (saturateNegative_exact hfill).symm
  rw [hfilled]
  exact .iterate (e := Progress.exact) lockstep_sweepStep fuel
    { g with state := saturateNegative p delta g.state }

theorem lockstep_phaseStep (s : Progress n m (Word w) × Int) :
    Lockstep (Step.map exactPhase Progress.exact) (phaseStep p fuel factor s)
      (phaseStep p.exact fuel factor (exactPhase s)) := by
  refine (lockstep_phase s.1).bind fun g _ => .of_eq_map ?_
  show Except.ok (if s.2 = 1 then _ else _) =
    Except.ok ((if s.2 = 1 then _ else _ : Step _ _).map _ _)
  split <;> rfl

/-- The phases on words are in lockstep with those on integers. -/
theorem lockstep_run : Lockstep Progress.exact (run p fuel factor) (run p.exact fuel factor) := by
  have hstart : Lockstep id (startDelta fuel factor (largestAmount p (start p)))
      (startDelta fuel factor (largestAmount p.exact (start p).exact)) :=
    .of_eq_map (congrFun Except.map_id _).symm
  unfold run
  rw [← start_exact p]
  exact hstart.bind fun delta _ => .iterate (e := exactPhase) lockstep_phaseStep fuel
    ({ state := start p, augmentations := 0, moved := false }, delta)

/-- Capacity scaling on words is in lockstep with capacity scaling on integers. -/
theorem lockstep_solve (fuel : Nat) (p : Problem n m (Word w)) (factor : Nat) :
    Logged.Lockstep Outcome.exact (solve fuel p factor) (solve fuel p.exact factor) := by
  have hrun : Lockstep Progress.exact (run { p with rows := p.rows } fuel factor)
      (run { p.exact with rows := p.exact.rows } fuel factor) :=
    lockstep_run (p := { p with rows := p.rows })
  unfold solve
  refine .bind (.ofRun hrun) fun last _ => .of_eq_map ?_
  rw [map_bind]
  congr 1
  funext _
  show (if last.state.excess.toList.any (· ≠ 0) then _ else _) =
    _ <$> (if last.state.excess.toList.any (· ≠ 0) then _ else _ : Logged _)
  split <;> rfl

end Run

end NetworkFlow.CapacityScaling
