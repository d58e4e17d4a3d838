import Mathlib.Order.Bounds.Basic
import NetworkFlow.Proofs.CapacityScaling.Amounts

/-!
# The deltas of capacity scaling

The first delta is meant to be the largest power of the factor that some excess, some deficit or
some capacity reaches. Dividing a power by the factor gives the power below it, so a run has one
phase for each power from the first delta down to one (`powersDown`).

The factor is a count, but delta is multiplied and divided by a signed number. A factor that is not
an amount is read as a negative number: its first multiple passes every limit, so the search leaves
the only power that it should find, which is one, and never comes back to stay.

## Main results

* `isGreatest_startDelta`: the first delta is the largest power.
* `phasesFor_of_iterate`: a run is one phase for each power.
* `startDelta_ne_one`: a factor that is read as a negative number never leads to one.
* `deltas_sound_iff`: the deltas are right exactly if the factor is an amount.
-/

namespace NetworkFlow.CapacityScaling

variable {n m : Nat} {α : Type} {factor fuel k : Nat} {limit delta : Int}

section First

/-- The powers of a factor that are not above one, or not above some excess or deficit, or not
above some capacity that was not made up. -/
def powersWithin (p : Indexed n m α) (st : State n m α) (factor : Nat) : Set Int :=
  {x | (∃ k : Nat, x = (factor : Int) ^ k) ∧ (x ≤ 1 ∨ (∃ v : Fin n, x ≤ |st.excess[v]|) ∨
    ∃ a : Fin m, p.uncapped[a] = false ∧ x ≤ p.cap[a])}

/-- A positive number is not above the largest one of a list, zero if there is none, exactly if it
is not above some member. -/
private theorem le_max?_getD {x : Int} (hx : 0 < x) (xs : List Int) :
    x ≤ xs.max?.getD 0 ↔ ∃ y ∈ xs, x ≤ y := by
  cases h : xs.max? with
  | none =>
      rw [List.max?_eq_none_iff.mp h]
      simpa using hx
  | some top =>
      obtain ⟨hmem, hall⟩ := List.max?_eq_some_iff.mp h
      rw [Option.getD_some]
      exact ⟨fun hle => ⟨top, hmem, hle⟩, fun ⟨y, hy, hle⟩ => hle.trans (hall y hy)⟩

/-- What the largest amount of a state bounds. -/
theorem le_largestAmount {p : Indexed n m α} {st : State n m α} {x : Int} (hx : 0 < x) :
    x ≤ largestAmount p st ↔ (∃ v : Fin n, x ≤ |st.excess[v]|) ∨
      ∃ a : Fin m, p.uncapped[a] = false ∧ x ≤ p.cap[a] := by
  unfold largestAmount
  rw [le_max_iff, le_max?_getD hx, le_max?_getD hx]
  apply or_congr
  · simp [mem_toList]
  · simp

/-- No amount of a state whose flow accounts for its excesses is out of range. -/
theorem largestAmount_le {p : Indexed n m α} {st : State n m α} (hp : p.amounts.Prepared)
    (h : Sound p st) : largestAmount p st ≤ Amount.largest := by
  have hlimit : Amount.loadLimit ≤ Amount.largest := by decide
  by_cases hpos : 0 < largestAmount p st
  · rcases (le_largestAmount hpos).mp le_rfl with ⟨v, hv⟩ | ⟨a, -, ha⟩
    · have habs := (h.abs_excess_le v).trans (hp.load_le v)
      omega
    · have hcap : p.cap[a] ≤ Amount.loadLimit := hp.cap_le a
      omega
  · exact (not_lt.mp hpos).trans (by decide)

/-- The search ends only when the next power is above the limit. -/
theorem lt_of_growStep_done (h : (factor : Int) ≤ Amount.largest) (hlimit : limit ≤ Amount.largest)
    {result : Int} (hdelta : 1 ≤ delta) (hstep : growStep factor limit delta = .done result) :
    limit < delta * factor := by
  obtain ⟨-, hstop⟩ := growStep_eq_done.mp hstep
  rw [signedFactor_eq h] at hstop
  by_contra hle
  have hnonneg : 0 ≤ delta * (factor : Int) := mul_nonneg (by omega) (by omega)
  refine hstop ⟨⟨?_, ?_⟩, not_lt.mp hle⟩ <;> simp only [Width.half, Amount.largest] at * <;> omega

/-- The first delta is a power of the factor, within the limit unless it is one, and the next power
is above the limit. -/
theorem exists_pow_of_startDelta (h : (factor : Int) ≤ Amount.largest)
    (hlimit : limit ≤ Amount.largest) (hstart : startDelta fuel factor limit = .ok delta) :
    ∃ k, delta = (factor : Int) ^ k ∧ (k = 0 ∨ 2 ≤ factor ∧ delta ≤ limit) ∧
      (2 ≤ factor → limit < (factor : Int) ^ (k + 1)) := by
  unfold startDelta at hstart
  split at hstart
  · cases hstart
    exact ⟨0, by simp, Or.inl rfl, fun htwo => by omega⟩
  · have htwo : 2 ≤ factor := by omega
    have hpos : ∀ k : Nat, (1 : Int) ≤ (factor : Int) ^ k := fun k => one_le_pow₀ (by omega)
    refine iterate_invariant
      (P := fun delta => ∃ k, delta = (factor : Int) ^ k ∧ (k = 0 ∨ 2 ≤ factor ∧ delta ≤ limit))
      (Q := fun delta => ∃ k, delta = (factor : Int) ^ k ∧ (k = 0 ∨ 2 ≤ factor ∧ delta ≤ limit) ∧
        (2 ≤ factor → limit < (factor : Int) ^ (k + 1)))
      ?_ ?_ ⟨0, (pow_zero _).symm, Or.inl rfl⟩ hstart
    · rintro _ next ⟨k, rfl, -⟩ hstep
      obtain ⟨heq, -, hle⟩ := growStep_eq_next.mp (Except.ok.inj hstep)
      rw [signedFactor_eq h, ← pow_succ] at heq
      exact ⟨k + 1, heq, Or.inr ⟨htwo, hle⟩⟩
    · rintro _ result ⟨k, rfl, hk⟩ hstep
      obtain ⟨rfl, -⟩ := growStep_eq_done.mp (Except.ok.inj hstep)
      refine ⟨k, rfl, hk, fun _ => ?_⟩
      rw [pow_succ]
      exact lt_of_growStep_done h hlimit (hpos k) (Except.ok.inj hstep)

/-- The first delta is the largest power of the factor that some amount reaches. -/
theorem isGreatest_startDelta {p : Indexed n m α} {st : State n m α} (hp : p.amounts.Prepared)
    (hst : Sound p st) (h : (factor : Int) ≤ Amount.largest) (htwo : 2 ≤ factor)
    (hstart : startDelta fuel factor (largestAmount p st) = .ok delta) :
    IsGreatest (powersWithin p st factor) delta := by
  obtain ⟨k, rfl, hk, hnext⟩ := exists_pow_of_startDelta h (largestAmount_le hp hst) hstart
  have hpos : ∀ k : Nat, (1 : Int) ≤ (factor : Int) ^ k := fun k => one_le_pow₀ (by omega)
  constructor
  · refine ⟨⟨k, rfl⟩, ?_⟩
    rcases hk with rfl | ⟨-, hle⟩
    · exact Or.inl (by simp)
    · have := hpos k
      exact Or.inr ((le_largestAmount (by omega)).mp hle)
  · rintro _ ⟨⟨j, rfl⟩, hj⟩
    have hbound : (factor : Int) ^ j < (factor : Int) ^ (k + 1) := by
      rcases hj with hone | hreached
      · exact hone.trans_lt (one_lt_pow₀ (by omega) (by omega))
      · have := hpos j
        exact ((le_largestAmount (by omega)).mpr hreached).trans_lt (hnext htwo)
    have hlt : j < k + 1 := (pow_lt_pow_iff_right₀ (by omega)).mp hbound
    exact pow_le_pow_right₀ (by omega) (by omega)

/-- A count that is no amount is read as a negative number. -/
theorem signedFactor_neg (hcount : factor < unsignedBound) (h : Amount.largest < factor) :
    signedFactor factor < 0 := by
  have hdef := Int.bmod_def (factor : Int) (2 * Width.bits64.half)
  unfold signedFactor Width.residue
  simp only [Width.half, Amount.largest, unsignedBound] at *
  omega

theorem largestAmount_nonneg (p : Indexed n m α) (st : State n m α) : 0 ≤ largestAmount p st := by
  refine le_max_of_le_left ?_
  cases h : (st.excess.toList.map fun e => (e.natAbs : Int)).max? with
  | none => exact le_rfl
  | some top =>
      obtain ⟨e, -, rfl⟩ := List.mem_map.mp (List.max?_eq_some_iff.mp h).1
      exact Int.natCast_nonneg _

/-- With a factor that is read as a negative number, the search does not end at one: the next delta
is negative and so within every limit. -/
theorem startDelta_ne_one (hneg : signedFactor factor < 0) (htwo : 2 ≤ factor)
    (hlimit : 0 ≤ limit) : startDelta fuel factor limit ≠ .ok 1 := by
  intro hstart
  unfold startDelta at hstart
  rw [if_neg (by omega)] at hstart
  refine iterate_invariant (P := fun _ => True) (Q := fun result => result ≠ 1)
    (fun _ _ _ _ => trivial) ?_ trivial hstart rfl
  rintro delta result - hstep rfl
  obtain ⟨rfl, hstop⟩ := growStep_eq_done.mp (Except.ok.inj hstep)
  rw [one_mul] at hstop
  exact hstop ⟨Width.fits_residue _ _, by omega⟩

/-- A factor of minus one goes back and forth between one and minus one, if one is within the
limit. -/
theorem startDelta_eq_outOfFuel (hsigned : signedFactor factor = -1) (htwo : 2 ≤ factor)
    (hlimit : 1 ≤ limit) (fuel : Nat) : startDelta fuel factor limit = .error .outOfFuel := by
  unfold startDelta
  rw [if_neg (by omega)]
  refine iterate_eq_outOfFuel (P := fun delta => delta = 1 ∨ delta = -1) ?_ (Or.inl rfl) fuel
  intro delta hdelta
  have hfits : Width.bits64.Fits (delta * -1) := by
    rcases hdelta with rfl | rfl <;> decide
  refine ⟨delta * -1, ?_, by omega⟩
  rw [growStep_eq_next.mpr ⟨by rw [hsigned], hfits, by omega⟩]

end First

section Descent

/-- The powers of a factor from the one with a given exponent down to one. -/
def powersDown (factor : Nat) : Nat → List Int
  | 0 => [1]
  | k + 1 => (factor : Int) ^ (k + 1) :: powersDown factor k

@[simp] theorem head?_powersDown (factor k : Nat) :
    (powersDown factor k).head? = some ((factor : Int) ^ k) := by
  cases k <;> simp [powersDown]

@[simp] theorem getLast?_powersDown (factor k : Nat) : (powersDown factor k).getLast? = some 1 := by
  induction k with
  | zero => rfl
  | succ k ih => simp [powersDown, List.getLast?_cons, ih]

theorem mem_powersDown {x : Int} (hx : x ∈ powersDown factor k) :
    ∃ j ≤ k, x = (factor : Int) ^ j := by
  induction k with
  | zero =>
      obtain rfl := List.mem_singleton.mp hx
      exact ⟨0, le_rfl, by simp⟩
  | succ k ih =>
      rcases List.mem_cons.mp hx with rfl | hx
      · exact ⟨k + 1, le_rfl, rfl⟩
      · obtain ⟨j, hj, rfl⟩ := ih hx
        exact ⟨j, by omega, rfl⟩

/-- The powers fall. -/
theorem pairwise_powersDown (htwo : k = 0 ∨ 2 ≤ factor) :
    (powersDown factor k).Pairwise (· > ·) := by
  induction k with
  | zero => exact List.pairwise_singleton _ _
  | succ k ih =>
      refine List.pairwise_cons.mpr ⟨fun x hx => ?_, ih (by omega)⟩
      obtain ⟨j, hj, rfl⟩ := mem_powersDown hx
      exact pow_lt_pow_right₀ (by omega) (by omega)

/-- Divided by the factor, a power becomes the power below it. -/
theorem nextDelta_pow (h : (factor : Int) ≤ Amount.largest) (htwo : 2 ≤ factor) (k : Nat) :
    nextDelta factor ((factor : Int) ^ (k + 1)) = (factor : Int) ^ k := by
  unfold nextDelta
  rw [signedFactor_eq h, pow_succ, Int.mul_tdiv_cancel _ (by omega)]
  exact max_eq_left (one_le_pow₀ (by omega))

variable [Scalar α] {p : Indexed n m α} {g g' : Progress n m α}

/-- The phases for these deltas, one after the other. -/
def phasesFor (p : Indexed n m α) (fuel : Nat) (deltas : List Int) (g : Progress n m α) :
    Except Interruption (Progress n m α) :=
  deltas.foldlM (fun g delta => phase p fuel delta g) g

/-- The phases from one for a given delta on are that phase and, unless delta is one, those from the
next delta on. -/
theorem iterate_phaseStep (p : Indexed n m α) (count : Nat) (g : Progress n m α) (delta : Int) :
    iterate (count + 1) (phaseStep p fuel factor) (g, delta) = (do
      let g' ← phase p fuel delta g
      if delta = 1 then .ok g'
      else iterate count (phaseStep p fuel factor) (g', nextDelta factor delta)) := by
  rw [iterate, phaseStep]
  cases phase p fuel delta g with
  | error why => rfl
  | ok g' =>
      simp only [bind, Except.bind, pure, Except.pure]
      by_cases hone : delta = 1
      · simp only [hone, if_true]
      · simp only [hone, if_false]

/-- From a power on, there is one phase for each power down to one. -/
theorem phasesFor_eq_iterate (h : (factor : Int) ≤ Amount.largest) (htwo : k = 0 ∨ 2 ≤ factor)
    {count : Nat}
    (hends : iterate count (phaseStep p fuel factor) (g, (factor : Int) ^ k) ≠
      .error .outOfFuel) :
    phasesFor p fuel (powersDown factor k) g =
      iterate count (phaseStep p fuel factor) (g, (factor : Int) ^ k) := by
  induction k generalizing count g with
  | zero =>
      cases count with
      | zero => exact absurd rfl hends
      | succ count =>
          simp only [iterate_phaseStep, pow_zero, if_true]
          rfl
  | succ k ih =>
      have htwo : 2 ≤ factor := by omega
      have hpos : (1 : Int) < (factor : Int) ^ (k + 1) := one_lt_pow₀ (by omega) (by omega)
      cases count with
      | zero => exact absurd rfl hends
      | succ count =>
          simp only [iterate_phaseStep, if_neg hpos.ne', nextDelta_pow h htwo] at hends ⊢
          show phase p fuel ((factor : Int) ^ (k + 1)) g >>=
            phasesFor p fuel (powersDown factor k) = _
          cases hphase : phase p fuel ((factor : Int) ^ (k + 1)) g with
          | error why => rfl
          | ok g' =>
              rw [hphase] at hends
              exact ih (Or.inr htwo) hends

/-- Before the first phase. -/
def begun (p : Indexed n m α) : Progress n m α :=
  { state := start p, augmentations := 0, moved := false }

/-- What the deltas of a run are meant to be. -/
structure GoesThrough (p : Indexed n m α) (factor : Nat) (deltas : List Int) : Prop where
  /-- The search for the first delta ends, with one at least and with the largest power that some
  amount reaches if there is more than one power. -/
  first : ∃ delta, deltas.head? = some delta ∧ 1 ≤ delta ∧
    (∃ fuel, startDelta fuel factor (largestAmount p (start p)) = .ok delta) ∧
    (2 ≤ factor → IsGreatest (powersWithin p (start p) factor) delta)
  falls : deltas.Pairwise (· > ·)
  last : deltas.getLast? = some 1
  /-- A run is one phase for each delta. -/
  phases : ∀ fuel, run p fuel factor ≠ .error .outOfFuel →
    phasesFor p fuel deltas (begun p) = run p fuel factor
  ends : ∃ fuel, run p fuel factor ≠ .error .outOfFuel

/-- A factor that is an amount leads through its powers. -/
theorem goesThrough_powersDown (hrows : p.rows = p.toNetwork.rows) (hp : p.amounts.Prepared)
    (h : (factor : Int) ≤ Amount.largest) : ∃ deltas, GoesThrough p factor deltas := by
  have hlimit := largestAmount_le hp (sound_start hp)
  obtain ⟨fuel₁, delta, hstart⟩ := exists_startDelta h (largestAmount p (start p))
  obtain ⟨k, rfl, hk, -⟩ := exists_pow_of_startDelta h hlimit hstart
  have htwo : k = 0 ∨ 2 ≤ factor := by omega
  refine ⟨powersDown factor k, ?_, pairwise_powersDown htwo, getLast?_powersDown factor k, ?_,
    run_ends hrows h⟩
  · exact ⟨_, head?_powersDown factor k, (startDelta_spec h hstart).1, ⟨fuel₁, hstart⟩,
      fun htwo => isGreatest_startDelta hp (sound_start hp) h htwo hstart⟩
  · intro fuel hends
    unfold run at hends ⊢
    dsimp only at hends ⊢
    cases hstart' : startDelta fuel factor (largestAmount p (start p)) with
    | error why =>
        rw [hstart'] at hends
        cases why with
        | outOfFuel => exact absurd rfl hends
        | overflow => exact absurd hstart' (startDelta_ne_overflow _)
    | ok delta =>
        -- the search finds the same power whatever its fuel
        have h₁ := (startDelta_mono (show fuel₁ ≤ fuel₁ + fuel by omega) _).eq_ok hstart
        have h₂ := (startDelta_mono (show fuel ≤ fuel₁ + fuel by omega) _).eq_ok hstart'
        obtain rfl : delta = (factor : Int) ^ k := Except.ok.inj (h₂.symm.trans h₁)
        rw [hstart'] at hends
        exact phasesFor_eq_iterate h htwo hends

/-- A factor that is read as a negative number has no power but one in reach, and the search never
ends there. -/
theorem GoesThrough.factor_le (hp : p.amounts.Prepared) (hcount : factor < unsignedBound)
    {deltas : List Int} (h : GoesThrough p factor deltas) : (factor : Int) ≤ Amount.largest := by
  by_contra hlarge
  rw [not_le] at hlarge
  have htwo : 2 ≤ factor := by
    simp only [Amount.largest] at hlarge
    omega
  obtain ⟨delta, -, hone, ⟨fuel, hstart⟩, hgreatest⟩ := h.first
  obtain ⟨⟨j, rfl⟩, hreached⟩ := (hgreatest htwo).1
  have hj : j = 0 := by
    by_contra hj
    have hpow : (factor : Int) ≤ (factor : Int) ^ j := le_self_pow₀ (by omega) hj
    have hle : (factor : Int) ^ j ≤ Amount.largest := by
      rcases hreached with hle | hreached
      · exact hle.trans (by decide)
      · exact ((le_largestAmount (by omega)).mpr hreached).trans
          (largestAmount_le hp (sound_start hp))
    omega
  subst hj
  rw [pow_zero] at hstart
  exact startDelta_ne_one (signedFactor_neg hcount hlarge) htwo (largestAmount_nonneg _ _) hstart

end Descent

end NetworkFlow.CapacityScaling

namespace NetworkFlow.Configuration

variable {w : Width} {α : Type} [Cost α] {c : Configuration w α}
  {p : Problem c.nodes c.arcs (Cost.Wide α)}

/-- On every problem that `prepare` returns and for every 64-bit count as its factor, capacity
scaling goes through deltas as it is meant to exactly if the factor is an amount: it finds the
largest power of the factor in reach, has one phase for each of some falling deltas from there down
to one, and ends. -/
theorem deltas_sound_iff (hp : c.prepare.outcome = .ok (some p)) {factor : Nat}
    (hcount : factor < unsignedBound) :
    (∃ deltas, CapacityScaling.GoesThrough { p with rows := p.rows } factor deltas) ↔
      (factor : Int) ≤ Amount.largest :=
  ⟨fun ⟨_, h⟩ => h.factor_le (c.prepared_amounts hp) hcount,
    CapacityScaling.goesThrough_powersDown rfl (c.prepared_amounts hp)⟩

/-- A large amount to be sent over three parallel arcs, two of which take half of it each and cost
less. -/
def broadArcs : Configuration .bits64 (Word .bits64) where
  graph := { id := ⟨0⟩, nodeCount := 2, ends := #[⟨0, 1⟩, ⟨0, 1⟩, ⟨0, 1⟩], below := by decide }
  upper := some
    { graph := ⟨0⟩
      values := #[⟨50000000000000, by decide⟩, ⟨50000000000000, by decide⟩,
        ⟨100000000000000, by decide⟩]
      fill := default }
  cost := some { graph := ⟨0⟩, values := #[.clamp 1, .clamp 1, .clamp 3], fill := default }
  supply := .single ⟨0, Nat.two_pos⟩ ⟨1, Nat.one_lt_two⟩ ⟨100000000000000, by decide⟩

/-- The finite problem of `broadArcs`. -/
def broadProblem : Problem 2 3 (Word .bits128) :=
  broadArcs.toProblem ⟨#v[100000000000000, -100000000000000]⟩ 0

theorem prepare_broadArcs : broadArcs.prepare.outcome = .ok (some broadProblem) := by
  with_unfolding_all rfl

/-- A factor of ten million goes through its powers. -/
theorem deltas_sound_broadArcs :
    broadArcs.prepare.outcome = .ok (some broadProblem) ∧ 10000000 < unsignedBound ∧
      ∃ deltas, CapacityScaling.GoesThrough { broadProblem with rows := broadProblem.rows }
        10000000 deltas :=
  ⟨prepare_broadArcs, by decide, (deltas_sound_iff prepare_broadArcs (by decide)).mpr (by decide)⟩

/-- A factor that is read as minus ten million begins with the square of that, although none of its
own powers but one is in reach; with a factor that is read as minus one the search does not end. -/
theorem broadArcs_misscaled :
    broadArcs.prepare.outcome = .ok (some broadProblem) ∧ 18446744073699551616 < unsignedBound ∧
      CapacityScaling.startDelta 3 18446744073699551616
        (CapacityScaling.largestAmount { broadProblem with rows := broadProblem.rows }
          (CapacityScaling.start { broadProblem with rows := broadProblem.rows })) =
        .ok 100000000000000 ∧
      (¬ ∃ deltas, CapacityScaling.GoesThrough { broadProblem with rows := broadProblem.rows }
        18446744073699551616 deltas) ∧
      ∀ fuel, (CapacityScaling.solve fuel broadProblem 18446744073709551615).outcome =
        .error .outOfFuel := by
  have hlargest : CapacityScaling.largestAmount { broadProblem with rows := broadProblem.rows }
      (CapacityScaling.start { broadProblem with rows := broadProblem.rows }) =
      100000000000000 := by
    with_unfolding_all rfl
  refine ⟨prepare_broadArcs, by decide, ?_, ?_, fun fuel => ?_⟩
  · rw [hlargest]
    decide
  · rintro ⟨deltas, h⟩
    exact absurd (h.factor_le (broadArcs.prepared_amounts prepare_broadArcs) (by decide))
      (by decide)
  · have hstart : CapacityScaling.run { broadProblem with rows := broadProblem.rows } fuel
        18446744073709551615 = .error .outOfFuel := by
      unfold CapacityScaling.run
      simp only [hlargest]
      rw [CapacityScaling.startDelta_eq_outOfFuel (by decide) (by decide) (by decide)]
      rfl
    unfold CapacityScaling.solve
    rw [hstart]
    rfl

end NetworkFlow.Configuration
