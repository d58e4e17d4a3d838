import NetworkFlow.Proofs.CapacityScaling.Optimal
import NetworkFlow.Proofs.Reach

/-!
# What a phase passes

A run of capacity scaling enters one phase after the other (`Entered`), always in a sound state: a
phase for a positive `delta` keeps states sound, and one for another `delta` sends nothing along
any way, if it ends. `Passed` says which states a phase passes once the residual arcs are filled,
whichever nodes it takes excesses from and in whatever order.

With exact costs and a positive `delta`, no wide residual arc has a negative reduced cost in any of
them. Every augmentation is a `Transfer` of at least `delta` from an excess to a deficit, neither of
which is more than used up, so that the excesses and deficits together shrink by twice of what is
sent.

## Main results

* `entered_of_run`, `passed_of_phase`: a run enters no other phases and passes no other states.
* `Entered.sound`, `Passed.inPhase`: what all of these states have in common.
* `transfer_augment`: what an augmentation does to the excesses.
* `phases_keep_optimal`: a phase from its beginning to its end.
-/

namespace NetworkFlow.CapacityScaling

open Finset Relation
open scoped ExactCosts

variable {n m fuel factor : Nat} {delta : Int}

section Run

variable {α : Type} [Scalar α]

/-- A problem with its residual arcs by the node they leave. -/
def indexed (p : Problem n m α) : Indexed n m α := { p with rows := p.rows }

/-- The deltas of the phases that a run enters, and the states in which it does. -/
inductive Entered (p : Indexed n m α) (factor : Nat) : Int → State n m α → Prop where
  | first {fuel : Nat} {delta : Int}
      (hdelta : startDelta fuel factor (largestAmount p (start p)) = .ok delta) :
      Entered p factor delta (start p)
  | next {fuel : Nat} {delta : Int} {g g' : Progress n m α} (h : Entered p factor delta g.state)
      (hdelta : delta ≠ 1) (hphase : phase p fuel delta g = .ok g') :
      Entered p factor (nextDelta factor delta) g'.state

/-- The states that a phase passes once the residual arcs are filled. -/
inductive Passed (p : Indexed n m α) (delta : Int) (st₀ : State n m α) : State n m α → Prop where
  | filled : Passed p delta st₀ (saturateNegative p delta st₀)
  | augment {st : State n m α} {s : Fin n} {way : Route n m α} (h : Passed p delta st₀ st)
      (hs : delta ≤ st.excess[s]) (hway : nearestDeficit p st s delta = some way) :
      Passed p delta st₀ (augment p st s way)

variable {p : Indexed n m α} {st st₀ : State n m α} {g g' : Progress n m α} {s t : Fin n}

/-- The last phase of a run is one that it enters. -/
theorem entered_of_run (hrun : run p fuel factor = .ok g) :
    ∃ g₀ : Progress n m α, Entered p factor 1 g₀.state ∧ phase p fuel 1 g₀ = .ok g :=
  exists_last_phase (P := fun st delta => Entered p factor delta st)
    (fun _ hdelta => Entered.first hdelta)
    (fun _ _ _ hst hone hphase => hst.next hone hphase) hrun

/-- A phase passes no other states. -/
theorem passed_of_phase (hrows : p.rows = p.toNetwork.rows) (hphase : phase p fuel delta g = .ok g') :
    Passed p delta g.state g'.state :=
  phase_invariant hrows (fun _ _ _ _ hst hs hway => hst.augment hs hway) .filled hphase

/-- A run enters its phases in sound states. -/
theorem Entered.sound (hp : p.amounts.Prepared) (hrows : p.rows = p.toNetwork.rows)
    (h : Entered p factor delta st) : Sound p st := by
  induction h with
  | first => exact sound_start hp
  | next _ _ hphase ih => exact sound_phase hrows ih hphase

/-- Some residual arc with room for `delta` leads from one node to another one. -/
def Hop (p : Indexed n m α) (delta : Int) (st : State n m α) (u v : Fin n) : Prop :=
  ∃ r, delta ≤ p.room st.flow r ∧ p.source r = u ∧ p.target r = v

omit [Scalar α] in
/-- No wide residual arcs lead out of a sealed set. -/
theorem Sealed.mem_of_hops {nodes : Finset (Fin n)} (h : Sealed p st s delta nodes)
    (hhops : ReflTransGen (Hop p delta st) s t) : t ∈ nodes := by
  induction hhops with
  | refl => exact h.self_mem
  | tail _ hhop ih =>
      obtain ⟨r, hroom, rfl, rfl⟩ := hhop
      exact h.closed r hroom ih

omit [Scalar α] in
/-- If every node is drained, wide residual arcs lead from no large excess to a large deficit. -/
theorem Drained.not_hops (hdelta : 1 ≤ delta) (h : Drained p delta st s)
    (hs : delta ≤ st.excess[s]) (ht : st.excess[t] ≤ -delta) :
    ¬ ReflTransGen (Hop p delta st) s t := by
  intro hhops
  obtain ⟨nodes, hsealed⟩ := h.resolve_left (by omega)
  have hne : t ≠ s := by
    rintro rfl
    omega
  have hsated := hsealed.sated t (hsealed.mem_of_hops hhops) hne
  omega

end Run

section Transfer

variable {α : Type} {p : Indexed n m α} {st st' : State n m α} {s : Fin n} {way : Route n m α}
  {amount : Int}

/-- An amount of at least `delta` is taken from the excess of a node along a way to a deficit. -/
structure Transfer (delta amount : Int) (s : Fin n) (way : Route n m α) (st st' : State n m α) :
    Prop where
  enough : delta ≤ amount
  flow_eq : st'.flow = sendAll st.flow way.path amount
  start_eq : st'.excess[s] = st.excess[s] - amount
  target_eq : st'.excess[way.target] = st.excess[way.target] + amount
  others : ∀ v : Fin n, v ≠ s → v ≠ way.target → st'.excess[v] = st.excess[v]
  /-- Excesses and deficits shrink by twice of what is sent. -/
  sum_abs : ∑ v : Fin n, |st'.excess[v]| = ∑ v : Fin n, |st.excess[v]| - 2 * amount

/-- Moving an amount from a number to another one that lacks as much makes both of them smaller. -/
theorem sum_abs_of_moved {f f' : Fin n → Int} {u v : Fin n} (hne : v ≠ u) (hu : f' u = f u - amount)
    (hv : f' v = f v + amount) (hothers : ∀ x, x ≠ u → x ≠ v → f' x = f x) (hnonneg : 0 ≤ amount)
    (hexcess : amount ≤ f u) (hdeficit : amount ≤ -f v) :
    ∑ x, |f' x| = ∑ x, |f x| - 2 * amount := by
  have hterm : ∀ x, |f' x| = |f x| - ((if u = x then amount else 0) + if v = x then amount else 0) := by
    intro x
    by_cases hxu : u = x
    · subst hxu
      rw [if_pos rfl, if_neg hne, hu, abs_of_nonneg (by omega), abs_of_nonneg (by omega), add_zero]
    · by_cases hxv : v = x
      · subst hxv
        rw [if_neg hxu, if_pos rfl, hv, abs_of_nonpos (by omega), abs_of_nonpos (by omega)]
        ring
      · rw [if_neg hxu, if_neg hxv, hothers x (Ne.symm hxu) (Ne.symm hxv)]
        ring
  rw [sum_congr rfl fun x _ => hterm x, sum_sub_distrib, sum_add_distrib]
  simp only [sum_ite_eq, mem_univ, if_true]
  ring

/-- An augmentation is a transfer. -/
theorem transfer_augment [Scalar α] (hdelta : 1 ≤ delta) (hway : way.Usable p st s delta)
    (hs : delta ≤ st.excess[s]) :
    Transfer delta (sent p st s way) s way st (augment p st s way) := by
  have hleast := le_sent hway hs
  obtain ⟨hstart, hend, -⟩ := sent_le p st s way
  have hne := hway.target_ne
  have hexcess : ∀ v : Fin n, (augment p st s way).excess[v] = st.excess[v] -
      ((if s = v then sent p st s way else 0) - if way.target = v then sent p st s way else 0) :=
    excess_augment hne
  have hu : (augment p st s way).excess[s] = st.excess[s] - sent p st s way := by
    rw [hexcess, if_pos rfl, if_neg hne, sub_zero]
  have hv : (augment p st s way).excess[way.target] = st.excess[way.target] + sent p st s way := by
    rw [hexcess, if_neg hne.symm, if_pos rfl]
    ring
  have hothers : ∀ v : Fin n, v ≠ s → v ≠ way.target →
      (augment p st s way).excess[v] = st.excess[v] := by
    intro v hvs hvt
    rw [hexcess, if_neg hvs.symm, if_neg hvt.symm]
    ring
  have hsum : ∑ v : Fin n, |(augment p st s way).excess[v]| =
      ∑ v : Fin n, |st.excess[v]| - 2 * sent p st s way :=
    sum_abs_of_moved hne hu hv hothers (by omega) hstart hend
  exact ⟨hleast, flow_augment st s way, hu, hv, hothers, hsum⟩

end Transfer

section Exact

variable [ExactCosts] {p : Indexed n m Int} {st st₀ : State n m Int} {s : Fin n}
  {way : Route n m Int}

/-- An augmentation keeps a state within its phase. -/
theorem InPhase.augment (hrows : p.rows = p.toNetwork.rows) (hdelta : 1 ≤ delta)
    (h : InPhase p delta st) (hs : delta ≤ st.excess[s])
    (hway : nearestDeficit p st s delta = some way) :
    InPhase p delta (CapacityScaling.augment p st s way) :=
  ⟨h.toSound.augment hdelta (usable_route hrows hway) hs,
    h.wideOptimal.augment (valid_route hrows h.wideOptimal hway)⟩

/-- Every state that a phase passes is sound, and no wide residual arc has a negative reduced
cost there. -/
theorem Passed.inPhase (hrows : p.rows = p.toNetwork.rows) (hp : p.Prepared) (hdelta : 1 ≤ delta)
    (hst₀ : Sound p st₀) (h : Passed p delta st₀ st) : InPhase p delta st := by
  induction h with
  | filled => exact ⟨hst₀.saturateNegative delta, wideOptimal_saturateNegative hp hdelta hst₀⟩
  | augment _ hs hway ih => exact ih.augment hrows hdelta hs hway

end Exact

end NetworkFlow.CapacityScaling

namespace NetworkFlow.Configuration

open CapacityScaling Relation

variable {w cw : Width} {c : Configuration w (Word cw)}
  {p : Problem c.nodes c.arcs (Cost.Wide (Word cw))}

/-- On every problem that `prepare` returns, take any state in which capacity scaling with any factor
enters a phase, and any positive `delta`.

* In every state that the phase for `delta` passes once the residual arcs are filled, the flow is
  within the capacities and accounts for the excesses, and no residual arc with room for `delta` has
  a negative reduced cost. An augmentation from there leads to such a state again; it moves at least
  `delta`, and excesses and deficits shrink by twice of what it moves.
* The phase ends, in one of these states. No residual arcs with room for `delta` lead from an excess
  of `delta` or more to a deficit of `delta` or more then. -/
theorem phases_keep_optimal [ExactCosts] (hp : c.prepare.outcome = .ok (some p)) {factor : Nat}
    {entered delta : Int} {st₀ : State c.nodes c.arcs Int}
    (hst₀ : Entered (indexed p.exact) factor entered st₀) (hdelta : 1 ≤ delta) :
    (∀ st, Passed (indexed p.exact) delta st₀ st → InPhase (indexed p.exact) delta st ∧
      ∀ (s : Fin c.nodes) way, delta ≤ st.excess[s] →
        nearestDeficit (indexed p.exact) st s delta = some way →
          InPhase (indexed p.exact) delta (augment (indexed p.exact) st s way) ∧
          ∃ amount, Transfer delta amount s way st (augment (indexed p.exact) st s way)) ∧
    ∀ g : Progress c.nodes c.arcs Int, g.state = st₀ →
      (∃ fuel g', phase (indexed p.exact) fuel delta g = .ok g') ∧
      ∀ fuel g', phase (indexed p.exact) fuel delta g = .ok g' →
        Passed (indexed p.exact) delta st₀ g'.state ∧
        ∀ s t : Fin c.nodes, delta ≤ g'.state.excess[s] → g'.state.excess[t] ≤ -delta →
          ¬ ReflTransGen (Hop (indexed p.exact) delta g'.state) s t := by
  have hprepared := c.prepared_of_prepare hp
  have hsound : Sound (indexed p.exact) st₀ := hst₀.sound hprepared.amounts rfl
  have hinPhase : ∀ {st}, Passed (indexed p.exact) delta st₀ st →
      InPhase (indexed p.exact) delta st :=
    fun h => h.inPhase rfl hprepared hdelta hsound
  refine ⟨fun st hst => ⟨hinPhase hst, fun s way hs hway => ?_⟩, fun g hg => ⟨?_, ?_⟩⟩
  · exact ⟨(hinPhase hst).augment rfl hdelta hs hway, _,
      transfer_augment hdelta (usable_route rfl hway) hs⟩
  · exact exists_phase rfl hdelta g
  · subst hg
    exact fun fuel g' hphase => ⟨passed_of_phase rfl hphase, fun s t =>
      (drained_of_phase rfl hdelta hphase s).not_hops hdelta⟩

/-- Both units on the dearer arc of `parallelProblem`, the only one with room for two. -/
def wideState : State 2 2 Int where
  flow := (Table.const 2 0).set (Fin.last 1) 2
  potential := ⟨#v[-3, 0]⟩
  excess := .const 2 0

/-- With a factor of two, the first phase over `parallelArcs` leaves `wideState` behind. -/
theorem entered_wideState :
    letI := ExactCosts.ofWidth .bits128
    Entered (indexed parallelProblem.exact) 2 1 wideState := by
  have hdelta :
      letI := ExactCosts.ofWidth .bits128
      startDelta 3 2 (largestAmount (indexed parallelProblem.exact)
        (start (indexed parallelProblem.exact))) = .ok 2 := by
    with_unfolding_all rfl
  have hphase :
      letI := ExactCosts.ofWidth .bits128
      phase (indexed parallelProblem.exact) 3 2
        { state := start (indexed parallelProblem.exact), augmentations := 0, moved := false } =
          .ok { state := wideState, augmentations := 1, moved := false } := by
    with_unfolding_all rfl
  have hnext : nextDelta 2 2 = 1 := by decide +kernel
  let _ := ExactCosts.ofWidth .bits128
  have hentered := (Entered.first hdelta).next (by decide) hphase
  rwa [hnext] at hentered

/-- The second phase over `parallelArcs` fills the cheaper arc and takes one unit back from the
dearer one. -/
theorem phases_keep_optimal_parallelArcs :
    letI := ExactCosts.ofWidth .bits128
    let q := indexed parallelProblem.exact
    parallelArcs.prepare.outcome = .ok (some parallelProblem) ∧ Entered q 2 1 wideState ∧
      ∃ way, nearestDeficit q (saturateNegative q 1 wideState) 1 1 = some way ∧
        InPhase q 1 (augment q (saturateNegative q 1 wideState) 1 way) ∧
        ∃ amount, Transfer 1 amount 1 way (saturateNegative q 1 wideState)
          (augment q (saturateNegative q 1 wideState) 1 way) := by
  have hexcess :
      letI := ExactCosts.ofWidth .bits128
      (1 : Int) ≤
        (saturateNegative (indexed parallelProblem.exact) 1 wideState).excess[(1 : Fin 2)] := by
    with_unfolding_all decide
  have hway :
      letI := ExactCosts.ofWidth .bits128
      nearestDeficit (indexed parallelProblem.exact)
        (saturateNegative (indexed parallelProblem.exact) 1 wideState) 1 1 =
          some { target := 0, dist := 0, path := [⟨1, true⟩], settled := [(0, 0), (1, 0)] } := by
    with_unfolding_all rfl
  let _ := ExactCosts.ofWidth .bits128
  obtain ⟨-, hadvance⟩ :=
    (phases_keep_optimal prepare_parallelArcs entered_wideState le_rfl).1 _ Passed.filled
  exact ⟨prepare_parallelArcs, entered_wideState, _, hway, hadvance (1 : Fin 2) _ hexcess hway⟩

end NetworkFlow.Configuration
