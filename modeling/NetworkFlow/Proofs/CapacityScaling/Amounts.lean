import NetworkFlow.Proofs.CapacityScaling.Optimal
import NetworkFlow.Proofs.Loads

/-!
# Amounts of capacity scaling are in range

A run fills arcs of negative cost, one after the other; then every phase fills the residual
arcs with room for its `delta` in turn and sends excesses to deficits. `Reached` says which states
it passes, and where it stands then. In all of them a flow within the capacities accounts for the
excesses, so nothing that is added, subtracted or negated on the way leaves the range of the
amounts, as long as the factor is one.

## Main results

* `reached_phase`, `reached_run`: a run passes no other states.
* `Reached.sound`: its states are sound, and `delta` is an amount of at least one.
* `FormsAmount.fits`: what is computed from amounts is one.
-/

namespace NetworkFlow.CapacityScaling

variable {n m : Nat} {α : Type} [Scalar α] {factor : Nat}

section Reach

/-- Where a run stands. -/
inductive Stage (m : Nat) where
  /-- Arcs of negative cost are filled, and these are still to be looked at. -/
  | filling (rest : List (Fin m))
  /-- A phase begins, and these residual arcs are still to be looked at. -/
  | saturating (delta : Int) (rest : List (ResidualArc m))
  /-- Excesses are sent to deficits. -/
  | draining (delta : Int)

/-- The delta of the phase, if one has begun. -/
def Stage.delta? : Stage m → Option Int
  | .filling _ => none
  | .saturating delta _ => some delta
  | .draining delta => some delta

/-- The states that a run passes. -/
inductive Reached (p : Indexed n m α) (factor : Nat) : Stage m → State n m α → Prop where
  | blank : Reached p factor (.filling (List.finRange m))
      { flow := .const m 0, potential := .const n 0, excess := p.supply }
  | fill {a : Fin m} {rest : List (Fin m)} {st : State n m α}
      (h : Reached p factor (.filling (a :: rest)) st) :
      Reached p factor (.filling rest) (fillNegative p st a)
  | first {fuel : Nat} {delta : Int} {st : State n m α} (h : Reached p factor (.filling []) st)
      (hdelta : startDelta fuel factor (largestAmount p st) = .ok delta) :
      Reached p factor (.saturating delta (ResidualArc.all m)) st
  | saturate {delta : Int} {r : ResidualArc m} {rest : List (ResidualArc m)} {st : State n m α}
      (h : Reached p factor (.saturating delta (r :: rest)) st) :
      Reached p factor (.saturating delta rest) (saturate p delta st r)
  | drain {delta : Int} {st : State n m α} (h : Reached p factor (.saturating delta []) st) :
      Reached p factor (.draining delta) st
  | augment {delta : Int} {st : State n m α} {s : Fin n} {way : Route n m α}
      (h : Reached p factor (.draining delta) st) (hs : delta ≤ st.excess[s])
      (hway : nearestDeficit p st s delta = some way) :
      Reached p factor (.draining delta) (augment p st s way)
  | next {delta : Int} {st : State n m α} (h : Reached p factor (.draining delta) st)
      (hdelta : delta ≠ 1) :
      Reached p factor (.saturating (nextDelta factor delta) (ResidualArc.all m)) st

variable {p : Indexed n m α} {fuel : Nat} {delta : Int} {st : State n m α} {g g' : Progress n m α}

theorem Reached.foldl_fill {rest : List (Fin m)} (h : Reached p factor (.filling rest) st) :
    Reached p factor (.filling []) (rest.foldl (fillNegative p) st) := by
  induction rest generalizing st with
  | nil => exact h
  | cons a rest ih => exact ih h.fill

theorem Reached.foldl_saturate {rest : List (ResidualArc m)}
    (h : Reached p factor (.saturating delta rest) st) :
    Reached p factor (.draining delta) (rest.foldl (CapacityScaling.saturate p delta) st) := by
  induction rest generalizing st with
  | nil => exact h.drain
  | cons r rest ih => exact ih h.saturate

/-- A phase passes no other states. -/
theorem reached_phase (hrows : p.rows = p.toNetwork.rows)
    (h : Reached p factor (.saturating delta (ResidualArc.all m)) g.state)
    (hphase : phase p fuel delta g = .ok g') : Reached p factor (.draining delta) g'.state :=
  phase_invariant hrows (fun _ _ _ _ hst hs hway => hst.augment hs hway) h.foldl_saturate hphase

/-- A run ends in a state that it has passed. -/
theorem reached_run (hrows : p.rows = p.toNetwork.rows) (hrun : run p fuel factor = .ok g) :
    Reached p factor (.draining 1) g.state := by
  obtain ⟨g₀, hlast, hphase⟩ := exists_last_phase
    (P := fun st delta => Reached p factor (.saturating delta (ResidualArc.all m)) st)
    (fun _ hdelta => Reached.first Reached.blank.foldl_fill hdelta)
    (fun _ _ _ hst hone hphase => (reached_phase hrows hst hphase).next hone) hrun
  exact reached_phase hrows hlast hphase

end Reach

section Delta

/-- The first delta is an amount. -/
theorem startDelta_le {fuel : Nat} {limit delta : Int}
    (hstart : startDelta fuel factor limit = .ok delta) : delta ≤ Amount.largest := by
  refine startDelta_invariant (P := fun delta => delta ≤ Amount.largest) (by decide)
    (fun delta next _ _ hstep => ?_) hstart
  obtain ⟨-, ⟨-, hlt⟩, -⟩ := growStep_eq_next.mp hstep
  simp only [Width.half] at hlt
  unfold Amount.largest
  omega

/-- Delta does not grow from phase to phase. -/
theorem nextDelta_le (hfactor : (factor : Int) ≤ Amount.largest) {delta : Int}
    (hdelta : 1 ≤ delta) : nextDelta factor delta ≤ delta := by
  unfold nextDelta
  rw [signedFactor_eq hfactor, Int.tdiv_eq_ediv_of_nonneg (by omega)]
  exact max_le (Int.ediv_le_self _ (by omega)) hdelta

end Delta

section Range

variable {p : Indexed n m α} {stage : Stage m} {st : State n m α}

/-- The states of a run are sound, and every `delta` is an amount of at least one. -/
theorem Reached.sound (hp : p.amounts.Prepared) (hrows : p.rows = p.toNetwork.rows)
    (hfactor : (factor : Int) ≤ Amount.largest) (h : Reached p factor stage st) :
    Sound p st ∧ ∀ delta, stage.delta? = some delta → 1 ≤ delta ∧ delta ≤ Amount.largest := by
  induction h with
  | blank =>
      exact ⟨⟨hp.within_zero, fun v => by simp [Network.outflow]⟩, fun _ hdelta => by cases hdelta⟩
  | @fill a rest st _ ih =>
      refine ⟨?_, fun _ hdelta => by cases hdelta⟩
      unfold fillNegative
      split
      · exact ih.1.push _
      · exact ih.1
  | first _ hstart ih =>
      refine ⟨ih.1, fun _ hdelta => ?_⟩
      cases hdelta
      exact ⟨(startDelta_spec hfactor hstart).1, startDelta_le hstart⟩
  | saturate _ ih => exact ⟨ih.1.saturate _, ih.2⟩
  | drain _ ih => exact ih
  | augment _ hs hway ih =>
      exact ⟨ih.1.augment (ih.2 _ rfl).1 (usable_route hrows hway) hs, ih.2⟩
  | next _ _ ih =>
      refine ⟨ih.1, fun _ hdelta => ?_⟩
      cases hdelta
      obtain ⟨hone, hle⟩ := ih.2 _ rfl
      exact ⟨one_le_nextDelta _ _, (nextDelta_le hfactor hone).trans hle⟩

/-- What is computed from amounts: rooms, what filling a residual arc moves, what nodes need, the
threshold for a deficit, and the flows and excesses along and at the ends of a way. -/
inductive FormsAmount (p : Indexed n m α) (factor : Nat) : Int → Prop where
  | room {stage : Stage m} {st : State n m α} (h : Reached p factor stage st)
      (r : ResidualArc m) : FormsAmount p factor (p.room st.flow r)
  | filled {stage : Stage m} {st : State n m α} {r : ResidualArc m} {x : Int}
      (h : Reached p factor stage st)
      (hx : p.Moves st.flow st.excess r (p.room st.flow r) x) : FormsAmount p factor x
  | needed {stage : Stage m} {st : State n m α} (h : Reached p factor stage st) (v : Fin n) :
      FormsAmount p factor (-st.excess[v])
  | threshold {delta : Int} {st : State n m α} (h : Reached p factor (.draining delta) st) :
      FormsAmount p factor (-delta)
  | sentAlong {delta : Int} {st : State n m α} {s : Fin n} {way : Route n m α}
      {r : ResidualArc m} {done rest : List (ResidualArc m)}
      (h : Reached p factor (.draining delta) st) (hs : delta ≤ st.excess[s])
      (hway : nearestDeficit p st s delta = some way) (hpath : way.path = done ++ r :: rest) :
      FormsAmount p factor
        (sendAlong (sendAll st.flow done (sent p st s way)) r (sent p st s way))[r.arc]
  | left {delta : Int} {st : State n m α} {s : Fin n} {way : Route n m α}
      (h : Reached p factor (.draining delta) st) (hs : delta ≤ st.excess[s])
      (hway : nearestDeficit p st s delta = some way) :
      FormsAmount p factor (st.excess[s] - sent p st s way)
  | arrived {delta : Int} {st : State n m α} {s : Fin n} {way : Route n m α}
      (h : Reached p factor (.draining delta) st) (hs : delta ≤ st.excess[s])
      (hway : nearestDeficit p st s delta = some way) :
      FormsAmount p factor
        ((st.excess.set s (st.excess[s] - sent p st s way))[way.target] + sent p st s way)

omit [Scalar α] in
/-- What a node has to get rid of, or needs, is within its load. -/
theorem Sound.abs_excess_le (h : Sound p st) (v : Fin n) : |st.excess[v]| ≤ p.load v :=
  Problem.abs_held_le h.within (h.balanced v)

omit [Scalar α] in
/-- The beginning of a way takes what the way takes. -/
theorem within_sendAll_of_usable {delta : Int} {s : Fin n} {way : Route n m α} (h : Sound p st)
    (hdelta : 1 ≤ delta) (hs : delta ≤ st.excess[s]) (hway : way.Usable p st s delta)
    {done rest : List (ResidualArc m)} (hpath : way.path = done ++ rest) :
    p.Within (sendAll st.flow done (sent p st s way)) := by
  have hnodup := hway.nodup.of_map
  rw [hpath] at hnodup
  have hleast := le_sent hway hs
  refine h.within.sendAll hnodup.of_append_left (by omega) fun r hr => ?_
  exact (sent_le p st s way).2.2 r (hpath ▸ List.mem_append_left rest hr)

/-- What is computed from amounts is one. -/
theorem FormsAmount.fits (hp : p.amounts.Prepared) (hrows : p.rows = p.toNetwork.rows)
    (hfactor : (factor : Int) ≤ Amount.largest) {x : Int} (h : FormsAmount p factor x) :
    Width.bits64.Fits x := by
  have hlimit : 3 * Amount.loadLimit ≤ Amount.largest := by decide
  have hexcess : ∀ {stage st}, Reached p factor stage st → ∀ v : Fin n,
      |st.excess[v]| ≤ Amount.loadLimit :=
    fun hst v => ((hst.sound hp hrows hfactor).1.abs_excess_le v).trans (hp.load_le v)
  have hcap : ∀ a : Fin m, p.cap[a] ≤ Amount.loadLimit := hp.cap_le
  cases h with
  | room hst r =>
      refine (hst.sound hp hrows hfactor).1.within.fits_room ?_
      have := hcap r.arc
      omega
  | @filled stage st r _ hst hx =>
      have hwithin := (hst.sound hp hrows hfactor).1.within
      exact hx.fits hwithin (hcap r.arc) (hexcess hst) (hwithin.room_nonneg r) le_rfl
  | needed hst v =>
      have := hexcess hst v
      apply MaxFlow.fits_of_abs_le
      rw [abs_neg]
      omega
  | threshold hst =>
      obtain ⟨hone, hle⟩ := (hst.sound hp hrows hfactor).2 _ rfl
      apply MaxFlow.fits_of_abs_le
      rwa [abs_neg, abs_of_nonneg (by omega)]
  | @sentAlong delta st s way r done rest hst hs hway hpath =>
      obtain ⟨hsound, hdelta⟩ := hst.sound hp hrows hfactor
      have husable := usable_route hrows hway
      have hwithin : p.Within
          (sendAlong (sendAll st.flow done (sent p st s way)) r (sent p st s way)) := by
        have hsplit : way.path = (done ++ [r]) ++ rest := by simp [hpath]
        have := within_sendAll_of_usable hsound (hdelta _ rfl).1 hs husable hsplit
        rwa [sendAll_append] at this
      refine hwithin.fits_flow ?_
      have := hcap r.arc
      omega
  | @left delta st s way hst hs hway =>
      have hdelta := ((hst.sound hp hrows hfactor).2 _ rfl).1
      have hleast := le_sent (usable_route hrows hway) hs
      have hsent := (sent_le p st s way).1
      have hstart := abs_le.mp (hexcess hst s)
      apply MaxFlow.fits_of_abs_le
      rw [abs_le]
      omega
  | @arrived delta st s way hst hs hway =>
      have hdelta := ((hst.sound hp hrows hfactor).2 _ rfl).1
      have husable := usable_route hrows hway
      have hleast := le_sent husable hs
      have hsent := (sent_le p st s way).2.1
      have hend := abs_le.mp (hexcess hst way.target)
      apply MaxFlow.fits_of_abs_le
      rw [Table.getElem_set_of_ne _ _ husable.target_ne.symm, abs_le]
      omega

end Range

end NetworkFlow.CapacityScaling
