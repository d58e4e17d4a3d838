/-!
# Loops counted down from a number

A loop is a step function on a state. A step goes on with a next state, ends
with a result, or is interrupted: a loop of its own runs out of fuel, or it
computes something that leaves the range of its type.
`iterate fuel step s` takes at most `fuel` steps from `s`.

Main results:

* `Persists.iterate`: more fuel does not change how a loop ends;
* `iterate_invariant`: what the step keeps holds of the result;
* `exists_iterate_ne`: a loop whose measure goes down at every step ends for some fuel;
* `exists_iterate`: it ends with a result if no step is interrupted.
-/

namespace NetworkFlow

/-- Why a computation ends before it has a result. -/
inductive Interruption where
  /-- The fuel is used up. -/
  | outOfFuel
  /-- A plain operation leaves the range of its type. -/
  | overflow
  deriving DecidableEq, Repr

/-- What one step of a loop leads to. -/
inductive Step (σ β : Type) where
  | next (state : σ)
  | done (result : β)

variable {σ β : Type}

/-- Enough fuel for every search that can be waited for. -/
def ampleFuel : Nat := 4611686018427387904

/-- Takes steps from a state until one ends the loop, `fuel` steps at most. -/
@[specialize]
def iterate (fuel : Nat) (step : σ → Except Interruption (Step σ β)) (s : σ) :
    Except Interruption β :=
  match fuel with
  | 0 => .error .outOfFuel
  | fuel + 1 =>
      match step s with
      | .error why => .error why
      | .ok (.done result) => .ok result
      | .ok (.next s') => iterate fuel step s'

/-- The second outcome is the first one, unless that is the end of the fuel. -/
def Persists (x y : Except Interruption β) : Prop := x ≠ .error .outOfFuel → y = x

namespace Persists

theorem rfl {x : Except Interruption β} : Persists x x := fun _ => Eq.refl x

theorem eq_ok {x y : Except Interruption β} {b : β} (h : Persists x y) (hx : x = .ok b) :
    y = .ok b :=
  (h (by simp [hx])).trans hx

theorem bind {x x' : Except Interruption σ} {f f' : σ → Except Interruption β}
    (hx : Persists x x') (hf : ∀ a, Persists (f a) (f' a)) : Persists (x >>= f) (x' >>= f') := by
  intro h
  cases x with
  | error why => rw [hx fun heq => h (by rw [heq]; exact Eq.refl _)]; exact Eq.refl _
  | ok a =>
      rw [hx nofun]
      exact hf a h

theorem foldlM {ι : Type} {f f' : σ → ι → Except Interruption σ}
    (hf : ∀ s x, Persists (f s x) (f' s x)) (xs : List ι) (s : σ) :
    Persists (xs.foldlM f s) (xs.foldlM f' s) := by
  induction xs generalizing s with
  | nil => exact rfl
  | cons x xs ih =>
      rw [List.foldlM_cons, List.foldlM_cons]
      exact (hf s x).bind ih

/-- More fuel does not change how a loop ends, also if the step itself has more fuel. -/
theorem iterate {step step' : σ → Except Interruption (Step σ β)}
    (hStep : ∀ s, Persists (step s) (step' s)) {fuel fuel' : Nat} (hFuel : fuel ≤ fuel') {s : σ} :
    Persists (iterate fuel step s) (iterate fuel' step' s) := by
  induction fuel generalizing fuel' s with
  | zero => exact fun h => absurd (Eq.refl _) h
  | succ fuel ih =>
    obtain ⟨k, rfl⟩ : ∃ k, fuel' = k + 1 := ⟨fuel' - 1, by omega⟩
    unfold NetworkFlow.iterate
    cases hs : step s with
    | error why =>
      intro h
      rw [hStep s fun heq => h (by rw [← hs, heq]), hs]
    | ok r =>
      rw [(hStep s).eq_ok hs]
      cases r with
      | done result => exact rfl
      | next s' => exact ih (by omega)

end Persists

/-- A property that every step keeps holds of the states a loop passes, and what
holds of the results of steps from such states holds of the loop's result. -/
theorem iterate_invariant {step : σ → Except Interruption (Step σ β)} {P : σ → Prop}
    {Q : β → Prop}
    (hNext : ∀ s s', P s → step s = .ok (.next s') → P s')
    (hDone : ∀ s b, P s → step s = .ok (.done b) → Q b)
    {fuel : Nat} {s : σ} {b : β} (hs : P s) (h : iterate fuel step s = .ok b) : Q b := by
  induction fuel generalizing s with
  | zero => simp [iterate] at h
  | succ fuel ih =>
    unfold iterate at h
    cases hr : step s with
    | error why => simp [hr] at h
    | ok r =>
      rw [hr] at h
      cases r with
      | done result =>
        cases h
        exact hDone s _ hs hr
      | next s' => exact ih (hNext s s' hs hr) h

/-- A sequence ends, one way or another, if both parts do. -/
theorem bind_ne_outOfFuel {x : Except Interruption σ} {f : σ → Except Interruption β}
    (hx : x ≠ .error .outOfFuel) (hf : ∀ a, f a ≠ .error .outOfFuel) :
    x >>= f ≠ .error .outOfFuel := by
  cases x with
  | error why => exact fun h => hx (congrArg _ (Except.error.inj h))
  | ok a => exact hf a

/-- A sequence is not stopped by an overflow if neither part is. -/
theorem bind_ne_overflow {x : Except Interruption σ} {f : σ → Except Interruption β}
    (hx : x ≠ .error .overflow) (hf : ∀ a, x = .ok a → f a ≠ .error .overflow) :
    x >>= f ≠ .error .overflow := by
  cases x with
  | error why => exact fun h => hx (congrArg _ (Except.error.inj h))
  | ok a => exact hf a rfl

/-- A fold is not stopped by an overflow if no step from a state with the invariant `P` is. -/
theorem foldlM_ne_overflow {ι : Type} {f : σ → ι → Except Interruption σ} {P : σ → Prop}
    (hStep : ∀ s x, P s → f s x ≠ .error .overflow)
    (hNext : ∀ s x s', P s → f s x = .ok s' → P s') (xs : List ι) {s : σ} (hs : P s) :
    xs.foldlM f s ≠ .error .overflow := by
  induction xs generalizing s with
  | nil => exact nofun
  | cons x xs ih =>
    rw [List.foldlM_cons]
    exact bind_ne_overflow (hStep s x hs) fun s' hs' => ih (hNext s x s' hs hs')

/-- What neither runs out of fuel nor overflows has a result. -/
theorem exists_ok {x : Except Interruption β} (hfuel : x ≠ .error .outOfFuel)
    (hoverflow : x ≠ .error .overflow) : ∃ b, x = .ok b := by
  cases x with
  | ok b => exact ⟨b, rfl⟩
  | error why =>
    cases why with
    | outOfFuel => exact absurd rfl hfuel
    | overflow => exact absurd rfl hoverflow

/-- A loop is not stopped by an overflow if no step from a state with the invariant `P` is. -/
theorem iterate_ne_overflow {step : σ → Except Interruption (Step σ β)} {P : σ → Prop}
    (hStep : ∀ s, P s → step s ≠ .error .overflow)
    (hNext : ∀ s s', P s → step s = .ok (.next s') → P s')
    {fuel : Nat} {s : σ} (hs : P s) : iterate fuel step s ≠ .error .overflow := by
  induction fuel generalizing s with
  | zero => exact nofun
  | succ fuel ih =>
    unfold iterate
    cases hr : step s with
    | error why => exact fun h => hStep s hs (hr.trans (congrArg _ (Except.error.inj h)))
    | ok r =>
      cases r with
      | done result => exact nofun
      | next s' => exact ih (hNext s s' hs hr)

/-- If every step has an outcome, only the fuel can stop a loop. -/
theorem iterate_ok_ne_overflow {step : σ → Step σ β} {fuel : Nat} {s : σ} :
    iterate fuel (fun s => .ok (step s)) s ≠ .error .overflow := by
  induction fuel generalizing s with
  | zero => exact nofun
  | succ fuel ih =>
    unfold iterate
    cases step s with
    | done b => exact nofun
    | next s' => exact ih

/-- A loop ends, one way or another, if every step from a state with the invariant `P` does and
lowers a well-founded measure. -/
theorem exists_iterate_ne {step : σ → Except Interruption (Step σ β)} {P : σ → Prop}
    {r : σ → σ → Prop} (wf : WellFounded r)
    (hStep : ∀ s, P s → step s ≠ .error .outOfFuel)
    (hNext : ∀ s s', P s → step s = .ok (.next s') → P s' ∧ r s' s)
    {s : σ} (hs : P s) : ∃ fuel, iterate fuel step s ≠ .error .outOfFuel := by
  induction s using wf.induction with
  | h s ih =>
    cases ho : step s with
    | error why => exact ⟨1, by simpa [iterate, ho] using hStep s hs⟩
    | ok o =>
      cases o with
      | done b => exact ⟨1, by simp [iterate, ho]⟩
      | next s' =>
        obtain ⟨hP, hr⟩ := hNext s s' hs ho
        obtain ⟨fuel, hfuel⟩ := ih s' hr hP
        exact ⟨fuel + 1, by simpa [iterate, ho] using hfuel⟩

/-- A loop ends with a result if every step from a state with the invariant `P` has an
outcome and lowers a well-founded measure. -/
theorem exists_iterate {step : σ → Except Interruption (Step σ β)} {P : σ → Prop}
    {r : σ → σ → Prop} (wf : WellFounded r)
    (hStep : ∀ s, P s → ∃ o, step s = .ok o)
    (hNext : ∀ s s', P s → step s = .ok (.next s') → P s' ∧ r s' s)
    {s : σ} (hs : P s) : ∃ fuel b, iterate fuel step s = .ok b := by
  have hok : ∀ why s, P s → step s ≠ .error why := by
    intro why s hs heq
    obtain ⟨o, ho⟩ := hStep s hs
    cases ho.symm.trans heq
  obtain ⟨fuel, h⟩ := exists_iterate_ne wf (hok _) hNext hs
  have hoverflow : iterate fuel step s ≠ .error .overflow :=
    iterate_ne_overflow (hok _) (fun s s' hs h => (hNext s s' hs h).1) hs
  exact ⟨fuel, exists_ok h hoverflow⟩

end NetworkFlow
