import NetworkFlow.Loop

/-!
# When loops end

A loop whose step always has an outcome ends exactly if it does not reach a state
after every number of steps (`stateAfter`). A loop whose step holds a loop of its
own, counted down from the same number, ends for some number if every step has an
outcome for some number and lowers a well-founded measure.

## Main results

* `exists_iterate_iff`: a loop ends if it does not go on for ever.
* `iterate_ne_outOfFuel_of_lt`: a loop ends within as many steps as a number that its steps
  lower.
* `exists_iterate_fueled_ne`, `exists_iterate_fueled`: a loop of loops ends.
* `foldl_forall`: what each step of a fold does for its item.
* `foldl_best`: what a fold that looks for the best item finds.
-/

namespace NetworkFlow

variable {σ β : Type}

/-- The state of a loop after a number of steps, unless it has ended. -/
def stateAfter (step : σ → Step σ β) (s : σ) : Nat → Option σ
  | 0 => some s
  | k + 1 =>
      match stateAfter step s k with
      | none => none
      | some s' =>
          match step s' with
          | .next s'' => some s''
          | .done _ => none

theorem stateAfter_succ {step : σ → Step σ β} {s s' s'' : σ} {k : Nat}
    (h : stateAfter step s k = some s') :
    stateAfter step s (k + 1) = some s'' ↔ step s' = .next s'' := by
  simp only [stateAfter, h]
  cases step s' <;> simp

theorem exists_step_of_stateAfter {step : σ → Step σ β} {s s'' : σ} {k : Nat}
    (h : stateAfter step s (k + 1) = some s'') :
    ∃ s', stateAfter step s k = some s' ∧ step s' = .next s'' := by
  cases hk : stateAfter step s k with
  | none => simp [stateAfter, hk] at h
  | some s' => exact ⟨s', rfl, (stateAfter_succ hk).mp h⟩

/-- What a step keeps holds after every number of steps. -/
theorem stateAfter_invariant {step : σ → Step σ β} {P : σ → Prop} {s s' : σ} {k : Nat}
    (hNext : ∀ s s', P s → step s = .next s' → P s') (hs : P s)
    (h : stateAfter step s k = some s') : P s' := by
  induction k generalizing s' with
  | zero =>
      cases h
      exact hs
  | succ k ih =>
      obtain ⟨s₁, h₁, hstep⟩ := exists_step_of_stateAfter h
      exact hNext s₁ s' (ih h₁) hstep

/-- A loop that has ended does not go on. -/
theorem stateAfter_none_of_le {step : σ → Step σ β} {s : σ} {i j : Nat} (hij : i ≤ j)
    (h : stateAfter step s i = none) : stateAfter step s j = none := by
  induction hij with
  | refl => exact h
  | step _ ih => simp only [stateAfter, ih]

/-- The first step apart. -/
private theorem stateAfter_next {step : σ → Step σ β} {s s' : σ} (h : step s = .next s')
    (k : Nat) : stateAfter step s (k + 1) = stateAfter step s' k := by
  induction k with
  | zero => simp [stateAfter, h]
  | succ k ih => rw [stateAfter, ih, stateAfter]

/-- A loop ends for some fuel if it does not reach a state after every number of steps. -/
theorem exists_iterate_iff {step : σ → Step σ β} {s : σ} :
    (∃ fuel b, iterate fuel (fun s => .ok (step s)) s = .ok b) ↔
      ∃ k, stateAfter step s k = none := by
  constructor
  · rintro ⟨fuel, b, h⟩
    induction fuel generalizing s with
    | zero => simp [iterate] at h
    | succ fuel ih =>
        cases hs : step s with
        | done r => exact ⟨1, by simp [stateAfter, hs]⟩
        | next s' =>
            simp only [iterate, hs] at h
            obtain ⟨k, hk⟩ := ih h
            exact ⟨k + 1, by rw [stateAfter_next hs, hk]⟩
  · rintro ⟨k, h⟩
    induction k generalizing s with
    | zero => simp [stateAfter] at h
    | succ k ih =>
        cases hs : step s with
        | done r => exact ⟨1, r, by simp [iterate, hs]⟩
        | next s' =>
            rw [stateAfter_next hs] at h
            obtain ⟨fuel, b, hb⟩ := ih h
            exact ⟨fuel + 1, b, by simp [iterate, hs, hb]⟩

/-- A loop whose steps lower a number ends, one way or another, within that many steps. -/
theorem iterate_ne_outOfFuel_of_lt {step : σ → Except Interruption (Step σ β)}
    {measure : σ → Nat} (hStep : ∀ s, step s ≠ .error .outOfFuel)
    (hNext : ∀ s s', step s = .ok (.next s') → measure s' < measure s) {s : σ} {fuel : Nat}
    (hfuel : measure s < fuel) : iterate fuel step s ≠ .error .outOfFuel := by
  induction fuel generalizing s with
  | zero => omega
  | succ fuel ih =>
      unfold iterate
      cases hs : step s with
      | error why => exact fun h => hStep s (hs.trans (congrArg _ (Except.error.inj h)))
      | ok o =>
          cases o with
          | done b => simp
          | next s' =>
              have hless := hNext s s' hs
              exact ih (s := s') (by omega)

/-- A loop that goes from states of a kind to states of that kind does not end. -/
theorem iterate_eq_outOfFuel {step : σ → Except Interruption (Step σ β)} {P : σ → Prop}
    (h : ∀ s, P s → ∃ s', step s = .ok (.next s') ∧ P s') {s : σ} (hs : P s) (fuel : Nat) :
    iterate fuel step s = .error .outOfFuel := by
  induction fuel generalizing s with
  | zero => rfl
  | succ fuel ih =>
      obtain ⟨s', hstep, hs'⟩ := h s hs
      simp only [iterate, hstep]
      exact ih hs'

/-- The step with its state and its result read in another way. -/
def Step.map {σ' β' : Type} (f : σ → σ') (g : β → β') : Step σ β → Step σ' β'
  | .next s => .next (f s)
  | .done b => .done (g b)

/-- A loop of loops ends, one way or another, for some fuel if every step does, also for more
fuel, and lowers a well-founded measure. -/
theorem exists_iterate_fueled_ne {step : Nat → σ → Except Interruption (Step σ β)} {P : σ → Prop}
    {r : σ → σ → Prop} (wf : WellFounded r)
    (hMono : ∀ f f' s, f ≤ f' → Persists (step f s) (step f' s))
    (hStep : ∀ s, P s → ∃ f, step f s ≠ .error .outOfFuel)
    (hNext : ∀ f s s', P s → step f s = .ok (.next s') → P s' ∧ r s' s)
    {s : σ} (hs : P s) : ∃ fuel, iterate fuel (step fuel) s ≠ .error .outOfFuel := by
  induction s using wf.induction with
  | h s ih =>
    obtain ⟨f, hf⟩ := hStep s hs
    have hmore : ∀ k, step (f + k) s = step f s := fun k => hMono f (f + k) s (by omega) hf
    cases ho : step f s with
    | error why =>
        refine ⟨f + 1, ?_⟩
        simp only [iterate, hmore, ho]
        exact fun h => hf (ho.trans (congrArg _ (Except.error.inj h)))
    | ok o =>
        cases o with
        | done b =>
            refine ⟨f + 1, ?_⟩
            simp [iterate, hmore, ho]
        | next s' =>
            obtain ⟨hP, hr⟩ := hNext f s s' hs ho
            obtain ⟨fuel, hfuel⟩ := ih s' hr hP
            refine ⟨f + fuel + 1, ?_⟩
            simp only [iterate, show f + fuel + 1 = f + (fuel + 1) by omega, hmore, ho]
            rwa [Persists.iterate (fun s => hMono fuel (f + (fuel + 1)) s (by omega)) (by omega)
              hfuel]

/-- A loop of loops ends with a result for some fuel if every step has an outcome for some fuel,
also for more, and lowers a well-founded measure. -/
theorem exists_iterate_fueled {step : Nat → σ → Except Interruption (Step σ β)} {P : σ → Prop}
    {r : σ → σ → Prop} (wf : WellFounded r)
    (hMono : ∀ f f' s, f ≤ f' → Persists (step f s) (step f' s))
    (hStep : ∀ s, P s → ∃ f o, step f s = .ok o)
    (hNext : ∀ f s s', P s → step f s = .ok (.next s') → P s' ∧ r s' s)
    {s : σ} (hs : P s) : ∃ fuel b, iterate fuel (step fuel) s = .ok b := by
  -- an overflow would persist for the fuel with which the step has an outcome
  have hOverflow : ∀ f s, P s → step f s ≠ .error .overflow := by
    intro f s hs heq
    obtain ⟨f', o, ho⟩ := hStep s hs
    have hsame := hMono f (f + f') s (by omega) (by simp [heq])
    rw [(hMono f' (f + f') s (by omega)).eq_ok ho, heq] at hsame
    cases hsame
  obtain ⟨fuel, h⟩ := exists_iterate_fueled_ne wf hMono
    (fun s hs => (hStep s hs).imp fun f ⟨o, ho⟩ => by simp [ho]) hNext hs
  have hoverflow : iterate fuel (step fuel) s ≠ .error .overflow :=
    iterate_ne_overflow (hOverflow fuel) (fun s s' hs h => (hNext fuel s s' hs h).1) hs
  exact ⟨fuel, exists_ok h hoverflow⟩

/-- A fold whose step brings about a property of its item and keeps that of the others brings it
about for all items. -/
theorem foldl_forall {ι : Type} (step : σ → ι → σ) {P : σ → Prop} {Q : σ → ι → Prop}
    (hP : ∀ s x, P s → P (step s x))
    (hQ : ∀ s x y, P s → y = x ∨ Q s y → Q (step s x) y) (xs : List ι) {s : σ} (hs : P s) :
    P (xs.foldl step s) ∧ (∀ y, Q s y → Q (xs.foldl step s) y) ∧
      ∀ y ∈ xs, Q (xs.foldl step s) y := by
  induction xs generalizing s with
  | nil => exact ⟨hs, fun _ h => h, by simp⟩
  | cons x xs ih =>
      obtain ⟨hP', hkeep, hall⟩ := ih (hP s x hs)
      refine ⟨hP', fun y hy => hkeep y (hQ s x y hs (Or.inr hy)), fun y hy => ?_⟩
      rcases List.mem_cons.mp hy with rfl | hy
      · exact hkeep y (hQ s y y hs (Or.inl rfl))
      · exact hall y hy

/-- A fold that keeps the better one of what it has and the candidate of its item ends with the
best of them all. -/
theorem foldl_best {ι : Type} {step : β → ι → β} {candidate : ι → β} {better : β → β → Prop}
    (hrefl : ∀ b, better b b) (htrans : ∀ b₁ b₂ b₃, better b₁ b₂ → better b₂ b₃ → better b₁ b₃)
    (h : ∀ b x, (step b x = b ∨ step b x = candidate x) ∧ better (step b x) b ∧
      better (step b x) (candidate x)) (xs : List ι) (b : β) :
    (xs.foldl step b = b ∨ ∃ x ∈ xs, xs.foldl step b = candidate x) ∧
      better (xs.foldl step b) b ∧ ∀ x ∈ xs, better (xs.foldl step b) (candidate x) := by
  induction xs generalizing b with
  | nil => exact ⟨Or.inl rfl, hrefl b, by simp⟩
  | cons x xs ih =>
      obtain ⟨hcase, hb, hx⟩ := h b x
      obtain ⟨hcase', hb', hxs⟩ := ih (step b x)
      rw [List.foldl_cons]
      refine ⟨?_, htrans _ _ _ hb' hb, fun y hy => ?_⟩
      · rcases hcase' with heq | ⟨y, hy, heq⟩
        · rw [heq]
          exact hcase.imp_right fun heq' => ⟨x, by simp, heq'⟩
        · exact Or.inr ⟨y, by simp [hy], heq⟩
      · rcases List.mem_cons.mp hy with rfl | hy
        · exact htrans _ _ _ hb' hx
        · exact hxs y hy

end NetworkFlow
