import NetworkFlow.Proofs.Lockstep
import NetworkFlow.Proofs.NetworkSimplex.Run

/-!
# The network simplex on words

Of a basis, only the potentials are words. As long as what a pivot computes from them fits, it is
the pivot on integers: the potentials below the leaving arc are the same, the search for the entering
arc weighs the arcs that it looks at alike and finds the same one, and which arc leaves has nothing
to do with costs. So a run on words is the run on integers unless one of its operations leaves
the range.

## Main results

* `exact_refresh`: potentials that are computed with operations that fit.
* `exact_findEntering`: the search finds the same arc.
* `lockstep_solve`: the run on words is in lockstep with the run on integers.
-/

namespace NetworkFlow.NetworkSimplex

open scoped ExactCosts

variable {n m : Nat} {w : Width}

/-- The tableau with its costs read as integers. -/
def Tableau.exact (t : Tableau n m (Word w)) : Tableau n m Int :=
  { t with cost := t.cost.map (·.val), tolerance := t.tolerance.val }

/-- The basis with its potentials read as integers. -/
def Basis.exact (b : Basis n m (Word w)) : Basis n m Int :=
  { b with potential := b.potential.map (·.val) }

@[simp] theorem Tableau.getElem_exact_cost (t : Tableau n m (Word w)) (a : Fin (m + n)) :
    t.exact.cost[a] = t.cost[a].val :=
  Table.getElem_map _ _ a

@[simp] theorem Basis.getElem_exact_potential (b : Basis n m (Word w)) (u : Fin (n + 1)) :
    b.exact.potential[u] = b.potential[u].val :=
  Table.getElem_map _ _ u

theorem exact_ofProblem (p : Problem n m (Word w)) (rule : PivotRule) (dear : Word w) :
    (Tableau.ofProblem p rule dear).exact = Tableau.ofProblem p.exact rule dear.val := by
  have hcost : (p.cost ++ Table.const n dear).map (·.val) =
      p.cost.map (·.val) ++ Table.const n dear.val := by
    apply Table.ext
    intro a
    refine Fin.addCases (fun a => ?_) (fun v => ?_) a <;> simp
  unfold Tableau.exact Tableau.ofProblem
  simp only [hcost]
  rfl

section Potentials

variable [inst : ExactCosts] {t : Tableau n m (Word w)} {b : Basis n m (Word w)}

theorem val_linkedPotential {v : Fin n} (h : ∀ op ∈ Basis.linkOperations t b v, op.Fits) :
    (Basis.linkedPotential t b v).val = Basis.linkedPotential t.exact b.exact v := by
  have hpotential : b.exact.potential[b.exact.parent[v]] = b.potential[b.parent[v]].val :=
    b.getElem_exact_potential _
  have hcost : t.exact.cost[b.exact.link[v]] = t.cost[b.link[v]].val := t.getElem_exact_cost _
  have htail : t.exact.tail[b.exact.link[v]] = t.tail[b.link[v]] := rfl
  unfold Basis.linkOperations at h
  unfold Basis.linkedPotential
  simp only [hpotential, hcost, htail, scalar_add_eq, scalar_sub_eq]
  dsimp only at h
  split at h
  · rename_i hup
    rw [if_pos hup, if_pos hup, CostOperation.val_sub (h _ (List.mem_singleton_self _))]
  · rename_i hdown
    rw [if_neg hdown, if_neg hdown, CostOperation.val_add (h _ (List.mem_singleton_self _))]

theorem exact_settle {v : Fin n} (h : ∀ op ∈ Basis.linkOperations t b v, op.Fits) :
    (b.settle t v).exact = b.exact.settle t.exact v := by
  unfold Basis.settle Basis.exact
  rw [Table.map_set, val_linkedPotential h]
  rfl

/-- A refresh whose operations fit is the refresh on integers. -/
theorem exact_refresh {count : Nat} {layer : List (Fin n)}
    (h : ∀ op ∈ Basis.refreshOperations t b count layer, op.Fits) :
    (Basis.refresh t b count layer).exact = Basis.refresh t.exact b.exact count layer := by
  induction count generalizing b layer with
  | zero => cases layer <;> rfl
  | succ count ih =>
      cases layer with
      | nil => rfl
      | cons x xs =>
          rw [Basis.refreshOperations, List.forall_mem_append] at h
          · have hfold : ((x :: xs).foldl (Basis.settle t) b).exact =
                (x :: xs).foldl (Basis.settle t.exact) b.exact :=
              foldl_of_fits (fun _ _ _ => exact_settle) h.1
            simp only [Basis.refresh]
            rw [ih h.2, ← hfold]
            rfl
          · exact List.cons_ne_nil x xs

theorem exact_unsettled (t : Tableau n m (Word w)) (p : Problem n m (Word w)) :
    (Basis.unsettled t p).exact = Basis.unsettled t.exact p.exact := by
  unfold Basis.unsettled Basis.exact
  rw [Table.map_const, val_zero, scalar_zero_eq]
  rfl

/-- The first basis on words is the one on integers. -/
theorem exact_start {p : Problem n m (Word w)}
    (h : ∀ op ∈ Basis.startOperations t p, op.Fits) :
    (Basis.start t p).exact = Basis.start t.exact p.exact := by
  unfold Basis.start
  rw [exact_refresh h, exact_unsettled]
  rfl

end Potentials

section Search

variable [inst : ExactCosts] {t : Tableau n m (Word w)} {b : Basis n m (Word w)}
  {a : Fin (m + n)}

theorem val_reducedCost (h : ∀ op ∈ reducedCostOperations t b a, op.Fits) :
    (reducedCost t b a).val = reducedCost t.exact b.exact a := by
  have hadd := CostOperation.val_add (h _ List.mem_cons_self)
  have hsub := CostOperation.val_sub (h _ (List.mem_cons_of_mem _ List.mem_cons_self))
  unfold reducedCost
  rw [hsub, hadd, scalar_sub_eq, scalar_add_eq, Tableau.getElem_exact_cost,
    Basis.getElem_exact_potential, Basis.getElem_exact_potential]
  rfl

/-- An arc violates optimality on words as much as it does on integers. -/
theorem violation_exact (h : ∀ op ∈ violationOperations t b a, op.Fits) :
    violation t.exact b.exact a = (violation t b a).map (·.val) := by
  have hstate : b.exact.state[a] = b.state[a] := rfl
  have htolerance : t.exact.tolerance = t.tolerance.val := rfl
  unfold violationOperations at h
  unfold violation
  rw [hstate, htolerance]
  cases hs : b.state[a] with
  | tree => rfl
  | lower =>
      rw [hs] at h
      obtain ⟨hcost, hrest⟩ := List.forall_mem_append.mp h
      have hneg := CostOperation.val_neg (hrest _ List.mem_cons_self)
      have hturned := (List.forall_mem_cons.mp hrest).2
      simp only [scalar_lt_iff, scalar_neg_eq, word_lt_iff, hneg, ← val_reducedCost hcost] at hturned ⊢
      split at hturned
      · rename_i hlt
        rw [if_pos hlt, if_pos hlt, Option.map_some,
          CostOperation.val_neg (hturned _ (List.mem_singleton_self _))]
      · rename_i hlt
        rw [if_neg hlt, if_neg hlt]
        rfl
  | upper =>
      rw [hs] at h
      simp only [scalar_lt_iff, word_lt_iff, ← val_reducedCost h]
      split <;> rfl

/-- An arc with the amount by which it violates optimality, read as an integer. -/
def exactBest (x : Fin (m + n) × Word w) : Fin (m + n) × Int := (x.1, x.2.val)

theorem better_exact (h : ∀ op ∈ violationOperations t b a, op.Fits)
    (best : Option (Fin (m + n) × Word w)) :
    better t.exact b.exact (best.map exactBest) a = (better t b best a).map exactBest := by
  unfold better
  rw [violation_exact h]
  cases violation t b a with
  | none => rfl
  | some v =>
      rcases best with _ | ⟨x, y⟩
      · rfl
      · simp only [Option.map_some, exactBest, scalar_lt_iff, word_lt_iff]
        split <;> rfl

/-- The operations of the arcs of a list fit. -/
def Weighed (t : Tableau n m (Word w)) (b : Basis n m (Word w)) (arcs : List (Fin (m + n))) :
    Prop :=
  ∀ op ∈ arcs.flatMap (violationOperations t b), op.Fits

omit inst in
theorem weighed_cons {arcs : List (Fin (m + n))} : Weighed t b (a :: arcs) ↔
    (∀ op ∈ violationOperations t b a, op.Fits) ∧ Weighed t b arcs := by
  unfold Weighed
  rw [List.flatMap_cons, List.forall_mem_append]

/-- The first violating arc of a list is the same if the arcs up to it are weighed. -/
theorem find?_violation_exact {arcs : List (Fin (m + n))} (h : Weighed t b (upToFirst t b arcs)) :
    arcs.find? (fun a => (violation t.exact b.exact a).isSome) =
      arcs.find? fun a => (violation t b a).isSome := by
  induction arcs with
  | nil => rfl
  | cons a arcs ih =>
      obtain ⟨ha, hrest⟩ := weighed_cons.mp h
      rw [List.find?_cons, List.find?_cons, violation_exact ha, Option.isSome_map]
      cases hviolation : (violation t b a).isSome with
      | true => rfl
      | false =>
          rw [hviolation, if_neg Bool.false_ne_true] at hrest
          exact ih hrest

theorem foldl_better_exact {arcs : List (Fin (m + n))} (h : Weighed t b arcs)
    (best : Option (Fin (m + n) × Word w)) :
    arcs.foldl (better t.exact b.exact) (best.map exactBest) =
      (arcs.foldl (better t b) best).map exactBest := by
  induction arcs generalizing best with
  | nil => rfl
  | cons a arcs ih =>
      obtain ⟨ha, hrest⟩ := weighed_cons.mp h
      rw [List.foldl_cons, List.foldl_cons, better_exact ha, ih hrest]

omit inst in
theorem isSome_better (best : Option (Fin (m + n) × Word w)) :
    (better t b best a).isSome = (best.isSome || (violation t b a).isSome) := by
  unfold better
  cases violation t b a with
  | none => simp
  | some v =>
      cases best with
      | none => rfl
      | some best =>
          simp only
          split <;> rfl

/-- A block search finds the same arc if the arcs that it looks at are weighed. -/
theorem searchBlocks_exact {size : Nat} {arcs : List (Fin (m + n))} {scanned : Nat}
    (best : Option (Fin (m + n) × Word w))
    (h : Weighed t b (upToBlock t b size arcs scanned best.isSome)) :
    searchBlocks t.exact b.exact size arcs scanned (best.map exactBest) =
      searchBlocks t b size arcs scanned best := by
  induction arcs generalizing scanned best with
  | nil => cases best <;> rfl
  | cons a arcs ih =>
      obtain ⟨ha, hrest⟩ := weighed_cons.mp h
      rw [← isSome_better] at hrest
      simp only [searchBlocks, better_exact ha]
      split
      · rename_i hblock
        rw [if_pos hblock] at hrest
        cases hbetter : better t b best a with
        | some x => rfl
        | none =>
            rw [hbetter, Option.isSome_none, if_neg Bool.false_ne_true] at hrest
            exact ih none hrest
      · rename_i hblock
        rw [if_neg hblock] at hrest
        exact ih _ hrest

theorem searchFirst_exact (h : Weighed t b (upToFirst t b (fromCursor b))) :
    searchFirst t.exact b.exact = searchFirst t b := by
  have hcursor : fromCursor b.exact = fromCursor b := rfl
  unfold searchFirst
  rw [hcursor, find?_violation_exact h]
  rfl

theorem searchBest_exact (h : Weighed t b (List.finRange (m + n))) :
    searchBest t.exact b.exact = searchBest t b := by
  have hnone : (none : Option (Fin (m + n) × Int)) =
      Option.map exactBest (none : Option (Fin (m + n) × Word w)) := rfl
  unfold searchBest
  rw [hnone, foldl_better_exact h, Option.map_map]
  rfl

/-- The search for the entering arc finds the same arc on words as on integers. -/
theorem exact_findEntering (h : ∀ op ∈ enteringOperations t b, op.Fits) :
    findEntering t.exact b.exact = findEntering t b := by
  have hbland : b.exact.bland = b.bland := rfl
  have hrule : t.exact.rule = t.rule := rfl
  have hlooked : Weighed t b (lookedAt t b) := h
  unfold lookedAt at hlooked
  unfold findEntering
  rw [hbland, hrule]
  cases hb : b.bland with
  | true =>
      rw [hb, if_pos rfl] at hlooked
      exact congrArg (·, b.cursor) (find?_violation_exact hlooked)
  | false =>
      rw [hb, if_neg Bool.false_ne_true] at hlooked
      rw [if_neg Bool.false_ne_true, if_neg Bool.false_ne_true]
      cases ht : t.rule with
      | firstEligible =>
          rw [ht] at hlooked
          exact searchFirst_exact hlooked
      | bestEligible =>
          rw [ht] at hlooked
          exact congrArg (·, b.cursor) (searchBest_exact hlooked)
      | blockSearch =>
          rw [ht] at hlooked
          exact searchBlocks_exact none hlooked
      | bland =>
          rw [ht] at hlooked
          exact searchBlocks_exact none hlooked

end Search

section Pivot

variable [inst : ExactCosts] {t : Tableau n m (Word w)} {b : Basis n m (Word w)}

omit inst in
/-- The cycle of an entering arc does not depend on the potentials. -/
theorem cycleOf_exact (t : Tableau n m (Word w)) (b : Basis n m (Word w)) (a : Fin (m + n)) :
    cycleOf t.exact b.exact a = cycleOf t b a := by
  have hjoin : ∀ count u v, join b.exact count u v = join b count u v := by
    intro count
    induction count with
    | zero => exact fun _ _ => rfl
    | succ count ih =>
        intro u v
        simp only [join, ih]
        rfl
  have hway : ∀ stop count u, wayUp b.exact stop count u = wayUp b stop count u := by
    intro stop count
    induction count with
    | zero => exact fun _ => rfl
    | succ count ih =>
        intro u
        simp only [wayUp, ih]
        rfl
  simp only [cycleOf, hjoin, hway]
  rfl

omit inst in
theorem exact_shiftCycle (t : Tableau n m (Word w)) (b : Basis n m (Word w)) (a : Fin (m + n))
    (c : Cycle n) (amount : Int) :
    (shiftCycle t b a c amount).exact = shiftCycle t.exact b.exact a c amount := by
  have hfold : ∀ rising (vs : List (Fin n)) (b : Basis n m (Word w)),
      (vs.foldl (shiftLink t amount rising) b).exact =
        vs.foldl (shiftLink t.exact amount rising) b.exact :=
    fun rising vs b => (List.foldl_hom Basis.exact fun _ _ => rfl).symm
  unfold shiftCycle
  simp only [hfold]
  rfl

omit inst in
theorem exact_rehang (b : Basis n m (Word w)) (vs : List (Fin n)) (parent : Fin (n + 1))
    (link : Fin (m + n)) : (rehang b vs parent link).exact = rehang b.exact vs parent link := by
  induction vs generalizing b parent link with
  | nil => rfl
  | cons v vs ih =>
      simp only [rehang, ih]
      rfl

/-- An exchange whose operations fit is the exchange on integers. -/
theorem exact_exchange {a : Fin (m + n)} {c : Cycle n} {l : Leaving n m}
    (h : ∀ op ∈ exchangeOperations t b a c l, op.Fits) :
    (exchange t b a c l).exact = exchange t.exact b.exact a c l := by
  unfold exchangeOperations at h
  unfold exchange
  cases hplace : l.place with
  | none => rfl
  | some place =>
      obtain ⟨v, onFirst⟩ := place
      rw [hplace] at h
      simp only
      rw [exact_refresh h]
      unfold regraft
      rw [exact_rehang]
      rfl

/-- What a pivot does, read as integers. -/
def Pivot.exact : Pivot n m (Word w) → Pivot n m Int
  | .unbounded => .unbounded
  | .progress b => .progress b.exact
  | .degenerate b => .degenerate b.exact

/-- A pivot whose operations fit is the pivot on integers. -/
theorem exact_pivot {a : Fin (m + n)} (h : ∀ op ∈ pivotOperations t b a, op.Fits) :
    (pivot t b a).exact = pivot t.exact b.exact a := by
  have hleaving : leavingOf t.exact b.exact a (cycleOf t b a) = leavingOf t b a (cycleOf t b a) :=
    rfl
  unfold pivotOperations at h
  unfold pivot
  simp only [cycleOf_exact, hleaving]
  dsimp only at h
  split at h
  · rename_i hlarge
    rw [if_pos hlarge, if_pos hlarge]
    rfl
  · rename_i hsmall
    have hexchange := exact_exchange h
    rw [apply_ite Basis.exact, exact_shiftCycle] at hexchange
    rw [if_neg hsmall, if_neg hsmall, ← hexchange]
    split <;> rfl

end Pivot

section Run

variable [inst : ExactCosts] {t : Tableau n m (Word w)} {p : Problem n m (Word w)}

/-- The state of a run with its potentials read as integers. -/
def Progress.exact (s : Progress n m (Word w)) : Progress n m Int := { s with basis := s.basis.exact }

/-- The end of a run with its potentials read as integers. -/
def Finish.exact : Finish n m (Word w) → Finish n m Int
  | .optimal s => .optimal s.exact
  | .unbounded s => .unbounded s.exact

/-- A step of the run whose operations fit is the step on integers. -/
theorem exact_pivotStep {s : Progress n m (Word w)} (h : ∀ op ∈ stepOperations t s, op.Fits) :
    pivotStep t.exact s.exact = (pivotStep t s).map Progress.exact Finish.exact := by
  unfold stepOperations at h
  dsimp only at h
  obtain ⟨hentering, hpivoting⟩ := List.forall_mem_append.mp h
  have hfind : findEntering t.exact s.exact.basis = findEntering t s.basis :=
    exact_findEntering hentering
  unfold pivotStep
  rw [hfind]
  cases hfound : findEntering t s.basis with
  | mk entering cursor =>
      rw [hfound] at hpivoting
      cases entering with
      | none => rfl
      | some a =>
          have hpivot : pivot t.exact { s.exact.basis with cursor := cursor } a =
              (pivot t { s.basis with cursor := cursor } a).exact := (exact_pivot hpivoting).symm
          simp only
          rw [hpivot]
          cases pivot t { s.basis with cursor := cursor } a <;> rfl

/-- The pivots on words are in lockstep with those on integers. -/
theorem lockstep_run (fuel : Nat) (s : Progress n m (Word w)) :
    Lockstep Finish.exact (run t fuel s) (run t.exact fuel s.exact) := by
  unfold run
  exact .iterate (e := Progress.exact) (fun s => .checked exact_pivotStep) fuel s

omit inst in
theorem ownPotential_exact (b : Basis n m (Word w)) :
    ownPotential b.exact = (ownPotential b).map (·.val) := by
  apply Table.ext
  intro v
  simp [ownPotential, Basis.exact]

omit inst in
theorem exact_report (finish : Finish n m (Word w)) :
    finish.exact.report = Outcome.exact <$> finish.report := by
  cases finish with
  | unbounded s =>
      simp only [Finish.report, Finish.exact, map_bind]
      rfl
  | optimal s =>
      have huses : usesArtificial s.exact.basis = usesArtificial s.basis := rfl
      have hpotential : ownPotential s.exact.basis = (ownPotential s.basis).map (·.val) :=
        ownPotential_exact s.basis
      simp only [Finish.report, Finish.exact, map_bind, huses, hpotential]
      cases usesArtificial s.basis <;> rfl

/-- The cost of the artificial arcs on words is the one on integers. -/
theorem artificialCost_exact (hwidth : inst.width = w) (hcount : (n : Int) + 1 < w.half)
    (h : ∀ op ∈ Tableau.artificialCostOperations p, op.Fits) :
    Tableau.artificialCost p.exact = (Tableau.artificialCost p).map (·.val) := by
  obtain ⟨hmagnitudes, hsum⟩ := List.forall_mem_append.mp h
  have hmul := mul?_val hwidth (Scalar.ofCount (n + 1))
    (Scalar.maxMagnitude 0 p.cost.toList + 1 : Word w)
  rw [val_ofCount_succ hcount, CostOperation.val_add (hsum _ (List.mem_singleton_self _)),
    val_maxMagnitude_table hmagnitudes] at hmul
  unfold Tableau.artificialCost
  rw [ofCount_eq, scalar_add_eq, scalar_zero_eq, scalar_one_eq]
  push_cast
  rw [show Scalar.mul? ((n : Int) + 1) (Scalar.maxMagnitude 0 p.exact.cost.toList + 1) = _ from hmul]
  cases Scalar.mul? (Scalar.ofCount (n + 1)) (Scalar.maxMagnitude 0 p.cost.toList + 1 : Word w) <;>
    rfl

/-- The network simplex on words is in lockstep with the one on integers. -/
theorem lockstep_solve (hwidth : inst.width = w) (hcount : (n : Int) + 1 < w.half) (fuel : Nat)
    (rule : PivotRule) :
    Logged.Lockstep Outcome.exact (solve fuel p rule) (solve fuel p.exact rule) := by
  rw [solve_eq, solve_eq]
  refine .guard fun hartificial => ?_
  refine .bind (.ofExcept (artificialCost_exact hwidth hcount hartificial)) fun dear _ => ?_
  simp only [← exact_ofProblem]
  refine .guard fun hstart => ?_
  have hfirst : firstProgress (Tableau.ofProblem p rule dear).exact p.exact =
      (firstProgress (Tableau.ofProblem p rule dear) p).exact := by
    unfold firstProgress Progress.exact
    rw [exact_start hstart]
  rw [hfirst]
  exact .bind (.ofRun (lockstep_run fuel _)) fun finish _ => .of_eq_map (exact_report finish)

end Run

end NetworkFlow.NetworkSimplex
