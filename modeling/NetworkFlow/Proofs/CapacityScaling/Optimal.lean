import NetworkFlow.Proofs.CapacityScaling.Phases

/-!
# Capacity scaling is correct

The factor by which delta shrinks need not be sensible: a factor below two makes
the first delta one, and the phase for a delta of one is the last. It leaves no
residual arc with room at a negative reduced cost, so the flow is optimal if
every excess is gone. If some excess is left, the nodes that the search settles
from there have no deficits among them and no way out, so no flow is feasible.

## Main results

* `run_ends`: the phases end, for every factor that is a signed 64-bit number.
* `exists_last_phase`: what holds before the last phase.
* `solve_feasible`, `solve_infeasible`: in any arithmetic, the flow of a feasible answer is
  feasible, and an infeasible problem has no feasible flow.
* `solve_correct`, `capacityScaling_correct`: a feasible answer is an optimal flow with
  potentials that certify it, and an infeasible problem has no feasible flow.
-/

namespace NetworkFlow.CapacityScaling

open Finset
open scoped ExactCosts

variable {n m : Nat} {factor : Nat}

section Schedule

/-- A factor that is a signed 64-bit number is read as itself. -/
theorem signedFactor_eq (h : (factor : Int) ≤ Amount.largest) : signedFactor factor = factor := by
  refine Width.residue_of_fits ⟨?_, ?_⟩
  · simp only [Width.half]
    omega
  · simp only [Width.half, Amount.largest] at h ⊢
    omega

theorem one_le_nextDelta (factor : Nat) (delta : Int) : 1 ≤ nextDelta factor delta :=
  le_max_right _ _

/-- Delta shrinks. -/
theorem nextDelta_lt (h : (factor : Int) ≤ Amount.largest) (htwo : 2 ≤ factor) {delta : Int}
    (hdelta : 1 < delta) : nextDelta factor delta < delta := by
  unfold nextDelta
  rw [signedFactor_eq h, Int.tdiv_eq_ediv_of_nonneg (by omega)]
  have hdiv : delta / (factor : Int) < delta := by
    apply Int.ediv_lt_of_lt_mul (by omega)
    have : (2 : Int) ≤ factor := by omega
    nlinarith
  omega

/-- The search for the first delta goes on with a multiple that is in range and within the limit. -/
theorem growStep_eq_next {limit delta next : Int} : growStep factor limit delta = .next next ↔
    next = delta * signedFactor factor ∧ Width.bits64.Fits next ∧ next ≤ limit := by
  unfold growStep
  simp only
  split
  · rename_i hfits
    rw [Step.next.injEq]
    exact ⟨by rintro rfl; exact ⟨rfl, hfits⟩, fun h => h.1.symm⟩
  · rename_i hfits
    exact ⟨nofun, by rintro ⟨rfl, h⟩; exact absurd h hfits⟩

/-- The search ends with a delta whose multiple is not. -/
theorem growStep_eq_done {limit delta result : Int} : growStep factor limit delta = .done result ↔
    result = delta ∧
      ¬ (Width.bits64.Fits (delta * signedFactor factor) ∧ delta * signedFactor factor ≤ limit) := by
  unfold growStep
  simp only
  split
  · rename_i hfits
    exact ⟨nofun, fun h => absurd hfits h.2⟩
  · rename_i hfits
    rw [Step.done.injEq]
    exact ⟨by rintro rfl; exact ⟨rfl, hfits⟩, fun h => h.1.symm⟩

/-- While the first delta is looked for it stays positive and grows, up to the limit. -/
theorem growStep_next (h : (factor : Int) ≤ Amount.largest) (htwo : 2 ≤ factor)
    {limit delta next : Int} (hdelta : 1 ≤ delta) (hstep : growStep factor limit delta = .next next) :
    delta < next ∧ next ≤ limit := by
  obtain ⟨rfl, -, hlimit⟩ := growStep_eq_next.mp hstep
  rw [signedFactor_eq h] at hlimit ⊢
  have : (2 : Int) ≤ factor := by omega
  exact ⟨by nlinarith, hlimit⟩

theorem exists_startDelta (h : (factor : Int) ≤ Amount.largest) (limit : Int) :
    ∃ fuel delta, startDelta fuel factor limit = .ok delta := by
  unfold startDelta
  split
  · exact ⟨0, 1, rfl⟩
  · refine exists_iterate (P := fun delta => 1 ≤ delta)
      (measure fun delta : Int => (limit - delta).toNat).wf (fun _ _ => ⟨_, rfl⟩) ?_ le_rfl
    intro delta next hdelta hstep
    obtain ⟨hgrow, hlimit⟩ := growStep_next h (by omega) hdelta (Except.ok.inj hstep)
    refine ⟨by omega, ?_⟩
    show (limit - next).toNat < (limit - delta).toNat
    omega

/-- What holds of one, and of a delta with which the search goes on, holds of the first delta. -/
theorem startDelta_invariant {P : Int → Prop} {fuel : Nat} {limit delta : Int} (hone : P 1)
    (hgrow : ∀ delta next, 2 ≤ factor → P delta → growStep factor limit delta = .next next → P next)
    (hstart : startDelta fuel factor limit = .ok delta) : P delta := by
  unfold startDelta at hstart
  split at hstart
  · cases hstart
    exact hone
  · refine iterate_invariant (P := P) (Q := P) ?_ ?_ hone hstart
    · exact fun delta next h hstep => hgrow delta next (by omega) h (Except.ok.inj hstep)
    · intro delta result h hstep
      rw [(growStep_eq_done.mp (Except.ok.inj hstep)).1]
      exact h

theorem startDelta_spec (h : (factor : Int) ≤ Amount.largest) {fuel : Nat} {limit delta : Int}
    (hstart : startDelta fuel factor limit = .ok delta) :
    1 ≤ delta ∧ (factor < 2 → delta = 1) := by
  refine startDelta_invariant (P := fun delta => 1 ≤ delta ∧ (factor < 2 → delta = 1))
    ⟨le_rfl, fun _ => rfl⟩ (fun delta next htwo hdelta hstep => ?_) hstart
  obtain ⟨hgrow, -⟩ := growStep_next h htwo hdelta.1 hstep
  exact ⟨by omega, fun hlt => by omega⟩

/-- The search for the first delta computes with checked amounts. -/
theorem startDelta_ne_overflow {fuel : Nat} (limit : Int) :
    startDelta fuel factor limit ≠ .error .overflow := by
  unfold startDelta
  split
  · exact nofun
  · exact iterate_ok_ne_overflow

theorem startDelta_mono {fuel fuel' : Nat} (hfuel : fuel ≤ fuel') (limit : Int) :
    Persists (startDelta fuel factor limit) (startDelta fuel' factor limit) := by
  unfold startDelta
  split
  · exact .rfl
  · exact .iterate (fun _ => .rfl) hfuel

end Schedule

section Run

variable {α : Type} [Scalar α] {p : Indexed n m α} {fuel : Nat} {g : Progress n m α}

theorem phaseStep_mono {fuel' : Nat} (hfuel : fuel ≤ fuel') (s : Progress n m α × Int) :
    Persists (phaseStep p fuel factor s) (phaseStep p fuel' factor s) :=
  (phase_mono hfuel s.1).bind fun _ => .rfl

/-- What one phase leads to: the next one, or, if it was for a delta of one, the end. -/
theorem phaseStep_spec {s : Progress n m α × Int} {o : Step (Progress n m α × Int) (Progress n m α)}
    (hstep : phaseStep p fuel factor s = .ok o) :
    ∃ g, phase p fuel s.2 s.1 = .ok g ∧
      ((s.2 ≠ 1 ∧ o = .next (g, nextDelta factor s.2)) ∨ (s.2 = 1 ∧ o = .done g)) := by
  obtain ⟨g, hphase, hrest⟩ := bind_eq_ok.mp hstep
  refine ⟨g, hphase, ?_⟩
  have hrest := Except.ok.inj hrest
  split at hrest
  · exact Or.inr ⟨‹_›, hrest.symm⟩
  · exact Or.inl ⟨‹_›, hrest.symm⟩

/-- The phases end. -/
theorem run_ends (hrows : p.rows = p.toNetwork.rows)
    (hfactor : (factor : Int) ≤ Amount.largest) :
    ∃ fuel, run p fuel factor ≠ .error .outOfFuel := by
  obtain ⟨f₁, delta, hstart⟩ := exists_startDelta hfactor (largestAmount p (start p))
  obtain ⟨hdelta, hsmall⟩ := startDelta_spec hfactor hstart
  have hphases : ∃ fuel, iterate fuel (phaseStep p fuel factor)
      ({ state := start p, augmentations := 0, moved := false }, delta) ≠ .error .outOfFuel := by
    refine exists_iterate_fueled_ne (P := fun s => 1 ≤ s.2 ∧ (factor < 2 → s.2 = 1))
      (measure fun s : Progress n m α × Int => s.2.toNat).wf ?_ ?_ ?_ ⟨hdelta, hsmall⟩
    · exact fun f f' s hf => phaseStep_mono hf s
    · rintro s ⟨hdelta, -⟩
      obtain ⟨f, hphase⟩ := phase_ends hrows hdelta s.1
      exact ⟨f, bind_ne_outOfFuel hphase fun _ => nofun⟩
    · rintro f s s' ⟨hdelta, hsmall⟩ hstep
      obtain ⟨g, -, ⟨hone, heq⟩ | ⟨-, heq⟩⟩ := phaseStep_spec hstep <;> cases heq
      -- with a factor below two there is only the phase for a delta of one
      have htwo : 2 ≤ factor := by
        by_contra hlt
        exact hone (hsmall (by omega))
      have hnext := one_le_nextDelta factor s.2
      have hless := nextDelta_lt hfactor htwo (show 1 < s.2 by omega)
      refine ⟨⟨hnext, by omega⟩, ?_⟩
      show (nextDelta factor s.2).toNat < s.2.toNat
      omega
  obtain ⟨f₂, hphases⟩ := hphases
  refine ⟨f₁ + f₂, ?_⟩
  unfold run
  simp only [(startDelta_mono (show f₁ ≤ f₁ + f₂ by omega) _).eq_ok hstart]
  show iterate (f₁ + f₂) (phaseStep p (f₁ + f₂) factor) _ ≠ _
  rwa [Persists.iterate (phaseStep_mono (show f₂ ≤ f₁ + f₂ by omega)) (by omega) hphases]

/-- A run does not overflow if no phase does from what holds at the start and is kept by every
other phase. -/
theorem run_ne_overflow {P : State n m α → Int → Prop}
    (hstart : ∀ delta, startDelta fuel factor (largestAmount p (start p)) = .ok delta →
      P (start p) delta)
    (hphase : ∀ g delta, P g.state delta → phase p fuel delta g ≠ .error .overflow)
    (hnext : ∀ g delta g', P g.state delta → delta ≠ 1 → phase p fuel delta g = .ok g' →
      P g'.state (nextDelta factor delta)) : run p fuel factor ≠ .error .overflow := by
  refine bind_ne_overflow (startDelta_ne_overflow _) fun delta hdelta => ?_
  refine iterate_ne_overflow (P := fun s => P s.1.state s.2) ?_ ?_ (hstart delta hdelta)
  · exact fun s hs => bind_ne_overflow (hphase s.1 s.2 hs) fun _ _ => nofun
  · intro s s' hs hstep
    obtain ⟨g, hphase, ⟨hone, heq⟩ | ⟨-, heq⟩⟩ := phaseStep_spec hstep <;> cases heq
    exact hnext s.1 s.2 g hs hone hphase

/-- The last phase is one for a delta of one. What holds at the start and is kept by every other
phase holds before it. -/
theorem exists_last_phase {P : State n m α → Int → Prop}
    (hstart : ∀ delta, startDelta fuel factor (largestAmount p (start p)) = .ok delta →
      P (start p) delta)
    (hnext : ∀ g delta g', P g.state delta → delta ≠ 1 → phase p fuel delta g = .ok g' →
      P g'.state (nextDelta factor delta))
    (hrun : run p fuel factor = .ok g) : ∃ g₀, P g₀.state 1 ∧ phase p fuel 1 g₀ = .ok g := by
  obtain ⟨delta, hdelta, hphases⟩ := bind_eq_ok.mp hrun
  refine iterate_invariant (P := fun s => P s.1.state s.2)
    (Q := fun g => ∃ g₀, P g₀.state 1 ∧ phase p fuel 1 g₀ = .ok g) ?_ ?_ (hstart delta hdelta)
    hphases
  · intro s s' hs hstep
    obtain ⟨g, hphase, ⟨hone, heq⟩ | ⟨-, heq⟩⟩ := phaseStep_spec hstep <;> cases heq
    exact hnext s.1 s.2 g hs hone hphase
  · intro s g hs hstep
    obtain ⟨g₁, hphase, ⟨-, heq⟩ | ⟨hone, heq⟩⟩ := phaseStep_spec hstep <;> cases heq
    rw [hone] at hs hphase
    exact ⟨s.1, hs, hphase⟩

/-- The last phase starts from a sound state. -/
theorem exists_sound_last_phase (hrows : p.rows = p.toNetwork.rows) (hp : p.amounts.Prepared)
    (hrun : run p fuel factor = .ok g) :
    ∃ g₀ : Progress n m α, Sound p g₀.state ∧ phase p fuel 1 g₀ = .ok g :=
  exists_last_phase (P := fun st _ => Sound p st) (fun _ _ => sound_start hp)
    (fun _ _ _ hs _ hphase => sound_phase hrows hs hphase) hrun

end Run

section Answer

variable {α : Type} {fuel : Nat}

/-- If an excess is left although every node is drained, no flow is feasible. -/
theorem not_feasible_of_drained {p : Indexed n m α} {st : State n m α} (hp : p.amounts.Prepared)
    (h : Sound p st) (hdrained : ∀ v, Drained p 1 st v) (hleft : ∃ v : Fin n, st.excess[v] ≠ 0) :
    ¬ ∃ flow, p.amounts.Feasible flow := by
  obtain ⟨s, hs⟩ : ∃ s : Fin n, 0 < st.excess[s] := by
    by_contra hnone
    push Not at hnone
    obtain ⟨v, hv⟩ := hleft
    have hzero := (sum_eq_zero_iff_of_nonpos fun v _ => hnone v).mp (h.sum_excess hp)
    exact hv (hzero v (mem_univ v))
  obtain ⟨nodes, hself, hclosed, hsated⟩ := (hdrained s).resolve_left (by omega)
  have hcut : p.Closed st.flow nodes := by
    intro r hroom
    exact hclosed r (by omega)
  apply p.amounts.not_feasible_of_closed hcut
  refine sum_lt_sum (fun v hv => ?_) ⟨s, hself, ?_⟩
  · have hbalance : st.excess[v] + p.outflow st.flow v = p.supply[v] := h.balanced v
    show p.outflow st.flow v ≤ p.supply[v]
    by_cases hvs : v = s
    · subst hvs
      omega
    · have := hsated v hv hvs
      omega
  · have hbalance := h.balanced s
    show p.outflow st.flow s < p.supply[s]
    omega

variable [Scalar α] {p : Problem n m α}

/-- What an answer says about the excesses that the last phase has left. -/
theorem solve_eq {o : Outcome n m α} (h : (solve fuel p factor).outcome = .ok o) :
    ∃ last, run { p with rows := p.rows } fuel factor = .ok last ∧
      ((o = .infeasible ∧ ∃ v : Fin n, last.state.excess[v] ≠ 0) ∨
        (o = .feasible last.state.flow last.state.potential ∧
          ∀ v : Fin n, last.state.excess[v] = 0)) := by
  unfold solve at h
  obtain ⟨last, hrun, h⟩ := Logged.outcome_bind_eq_ok.mp h
  obtain ⟨-, -, h⟩ := Logged.outcome_bind_eq_ok.mp h
  refine ⟨last, Logged.outcome_ofRun_eq_ok.mp hrun, ?_⟩
  cases hany : last.state.excess.toList.any (· ≠ 0) with
  | true =>
      rw [hany] at h
      cases h
      obtain ⟨x, hx, hne⟩ := List.any_eq_true.mp hany
      obtain ⟨v, rfl⟩ := mem_toList.mp hx
      exact Or.inl ⟨rfl, v, by simpa using hne⟩
  | false =>
      rw [hany] at h
      cases h
      refine Or.inr ⟨rfl, fun v => ?_⟩
      have := List.any_eq_false.mp hany _ (getElem_mem_toList _ v)
      simpa using this

/-- In any arithmetic and for any factor, the flow of a feasible answer is feasible. -/
theorem solve_feasible (hp : p.amounts.Prepared) {flow : Table Int m} {potential : Table α n}
    (h : (solve fuel p factor).outcome = .ok (.feasible flow potential)) :
    p.amounts.Feasible flow := by
  obtain ⟨last, hrun, ⟨heq, -⟩ | ⟨heq, hzero⟩⟩ := solve_eq h <;> cases heq
  obtain ⟨g₀, hg₀, hphase⟩ :=
    exists_sound_last_phase (p := { p with rows := p.toNetwork.rows }) rfl hp hrun
  have hsound := sound_phase rfl hg₀ hphase
  refine ⟨hsound.within, fun v => ?_⟩
  have hbalance : last.state.excess[v] + p.outflow last.state.flow v = p.supply[v] :=
    hsound.balanced v
  rw [hzero, zero_add] at hbalance
  exact hbalance

/-- In any arithmetic and for any factor, no flow is feasible if that is the answer. -/
theorem solve_infeasible (hp : p.amounts.Prepared)
    (h : (solve fuel p factor).outcome = .ok .infeasible) :
    ¬ ∃ flow, p.amounts.Feasible flow := by
  obtain ⟨last, hrun, ⟨-, hleft⟩ | ⟨heq, -⟩⟩ := solve_eq h
  · obtain ⟨g₀, hg₀, hphase⟩ :=
      exists_sound_last_phase (p := { p with rows := p.toNetwork.rows }) rfl hp hrun
    exact not_feasible_of_drained (p := { p with rows := p.toNetwork.rows }) hp
      (sound_phase rfl hg₀ hphase) (drained_of_phase rfl le_rfl hphase) hleft
  · cases heq

/-- Capacity scaling refuses nothing. -/
theorem refusesOnly_solve (fuel : Nat) (p : Problem n m α) (factor : Nat) :
    (solve fuel p factor).RefusesOnly fun _ => False := by
  refine (Logged.refusesOnly_ofRun _).bind fun last _ => ?_
  refine (Logged.refusesOnly_of_ok rfl).bind fun _ _ => ?_
  split <;> exact Logged.refusesOnly_of_ok rfl

end Answer

section Costs

variable [inst : ExactCosts] {fuel : Nat}

omit inst in
/-- A state of the last phase has potentials that certify its flow. -/
theorem InPhase.certifies {p : Indexed n m Int} {st : State n m Int} (h : InPhase p 1 st) :
    p.Certifies st.flow st.potential := by
  rw [certifies_iff]
  intro r hroom
  exact h.wideOptimal r (by omega)

variable {p : Problem n m Int}

/-- The answer of capacity scaling is right. -/
theorem solve_correct (hp : p.Prepared) {o : Outcome n m Int}
    (h : (solve fuel p factor).outcome = .ok o) :
    (∃ flow potential, o = .feasible flow potential ∧
      p.Feasible flow ∧ p.Certifies flow potential) ∨
      (o = .infeasible ∧ ¬ ∃ flow, p.Feasible flow) := by
  obtain ⟨last, hrun, ⟨rfl, -⟩ | ⟨rfl, -⟩⟩ := solve_eq h
  · refine Or.inr ⟨rfl, fun ⟨flow, hflow⟩ => ?_⟩
    exact solve_infeasible hp.amounts h ⟨flow, Problem.feasible_amounts.mpr hflow⟩
  · obtain ⟨g₀, hg₀, hphase⟩ :=
      exists_sound_last_phase (p := { p with rows := p.toNetwork.rows }) rfl hp.amounts hrun
    refine Or.inl ⟨_, _, rfl, Problem.feasible_amounts.mp (solve_feasible hp.amounts h), ?_⟩
    exact (inPhase_of_phase rfl hp le_rfl hg₀ hphase).certifies

/-- On integers, a run does not overflow. -/
theorem run_ne_overflow_exact {p : Indexed n m Int} (hrows : p.rows = p.toNetwork.rows) :
    run p fuel factor ≠ .error .overflow :=
  run_ne_overflow (P := fun _ _ => True) (fun _ _ => trivial)
    (fun _ _ _ => phase_ne_overflow_exact hrows) fun _ _ _ _ _ _ => trivial

/-- Capacity scaling ends with an answer. -/
theorem exists_solve (hfactor : (factor : Int) ≤ Amount.largest) :
    ∃ fuel o, (solve fuel p factor).outcome = .ok o := by
  obtain ⟨fuel, hends⟩ := run_ends (p := { p with rows := p.toNetwork.rows }) rfl hfactor
  obtain ⟨g, hrun⟩ := exists_ok hends (run_ne_overflow_exact rfl)
  unfold solve
  refine ⟨fuel, if g.state.excess.toList.any (· ≠ 0) then .infeasible
    else .feasible g.state.flow g.state.potential, ?_⟩
  refine Logged.outcome_bind_eq_ok.mpr ⟨g, Logged.outcome_ofRun_eq_ok.mpr hrun, ?_⟩
  refine Logged.outcome_bind_eq_ok.mpr ⟨(), rfl, ?_⟩
  split <;> rfl

end Costs

end NetworkFlow.CapacityScaling

namespace NetworkFlow.Configuration

variable {w cw : Width} {c : Configuration w (Word cw)}
  {p : Problem c.nodes c.arcs (Cost.Wide (Word cw))}

/-- On every problem that `prepare` returns, capacity scaling ends for every factor that is a
signed 64-bit number. A feasible answer is a flow of least cost with potentials that certify it;
if the answer is that the problem is infeasible, no flow is feasible; and there is no other
answer. -/
theorem capacityScaling_correct [ExactCosts] (hp : c.prepare.outcome = .ok (some p))
    (factor : Nat) (hfactor : (factor : Int) ≤ Amount.largest) :
    (∃ fuel o, (CapacityScaling.solve fuel p.exact factor).outcome = .ok o) ∧
      ∀ fuel o, (CapacityScaling.solve fuel p.exact factor).outcome = .ok o →
        (∃ flow potential, o = .feasible flow potential ∧ p.exact.Feasible flow ∧
          p.exact.Certifies flow potential ∧ p.exact.Optimal flow) ∨
        (o = .infeasible ∧ ¬ ∃ flow, p.exact.Feasible flow) := by
  have hprepared := c.prepared_of_prepare hp
  refine ⟨CapacityScaling.exists_solve hfactor, fun fuel o h => ?_⟩
  apply (CapacityScaling.solve_correct hprepared h).imp_left
  rintro ⟨flow, potential, rfl, hfeasible, hcertifies⟩
  exact ⟨flow, potential, rfl, hfeasible, hcertifies, hcertifies.optimal hfeasible⟩

/-- With a factor of zero, too, the cheaper arc takes one of two units. -/
theorem capacityScaling_correct_parallelArcs :
    letI := ExactCosts.ofWidth .bits128
    parallelArcs.prepare.outcome = .ok (some parallelProblem) ∧
      (CapacityScaling.solve 9 parallelProblem.exact 0).outcome =
        .ok (.feasible ⟨#v[1, 1]⟩ ⟨#v[-3, 0]⟩) ∧
      parallelProblem.exact.Optimal ⟨#v[1, 1]⟩ := by
  let _ := ExactCosts.ofWidth .bits128
  have hsolve : (CapacityScaling.solve 9 parallelProblem.exact 0).outcome =
      .ok (.feasible ⟨#v[1, 1]⟩ ⟨#v[-3, 0]⟩) := by
    decide +kernel
  have hcorrect := capacityScaling_correct prepare_parallelArcs 0 (by decide)
  rcases hcorrect.2 9 _ hsolve with ⟨flow, potential, heq, -, -, hoptimal⟩ | ⟨heq, -⟩
  · cases heq
    exact ⟨prepare_parallelArcs, hsolve, hoptimal⟩
  · cases heq

end NetworkFlow.Configuration
