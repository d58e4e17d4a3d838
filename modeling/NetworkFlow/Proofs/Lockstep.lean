import NetworkFlow.Proofs.CostOperation
import NetworkFlow.Proofs.Iteration
import NetworkFlow.Proofs.Refusals

/-!
# Words in lockstep with integers

A run on words ends as soon as one of its plain operations leaves the range. Until then every
operation gives the integer that it should, so the same run on integers passes the same states. A
computation is in `Lockstep` with another one if the second does what the first one does, read as
integers, unless the first one overflows. What is put together from parts in lockstep is in
lockstep itself; no size is bounded for it.

## Main results

* `foldl_of_fits`: a fold whose operations fit.
* `Lockstep.checked`, `Lockstep.bind`, `Lockstep.iterate`: the parts of a run.
* `Logged.Lockstep.bind`: runs that report events.
-/

namespace NetworkFlow

open scoped ExactCosts

variable {σ σ' β β' ι : Type} {w : Width}

/-- A step of a fold reads as a step on integers if its operations fit. So does the fold. -/
theorem foldl_of_fits {step : σ → ι → σ} {step' : σ' → ι → σ'}
    {operations : σ → ι → List (CostOperation (Word w))} {e : σ → σ'} {xs : List ι}
    (h : ∀ s, ∀ x ∈ xs, (∀ op ∈ operations s x, op.Fits) → e (step s x) = step' (e s) x) {s : σ}
    (hfits : ∀ op ∈ Scalar.foldOperations step operations s xs, op.Fits) :
    e (xs.foldl step s) = xs.foldl step' (e s) := by
  induction xs generalizing s with
  | nil => rfl
  | cons x xs ih =>
      rw [Scalar.foldOperations, List.forall_mem_append] at hfits
      rw [List.foldl_cons, List.foldl_cons, ih (fun s y hy => h s y (by simp [hy])) hfits.2,
        h s x (by simp) hfits.1]

/-- The operations of a fold fit if those of each step do, for states of a kind `P` that may
depend on what is left of the list. -/
theorem foldOperations_fit {step : σ → ι → σ} {operations : σ → ι → List (CostOperation (Word w))}
    {P : List ι → σ → Prop}
    (hfits : ∀ s x rest, P (x :: rest) s → ∀ op ∈ operations s x, op.Fits)
    (hnext : ∀ s x rest, P (x :: rest) s → P rest (step s x)) {xs : List ι} {s : σ}
    (hs : P xs s) : ∀ op ∈ Scalar.foldOperations step operations s xs, op.Fits := by
  induction xs generalizing s with
  | nil => simp [Scalar.foldOperations]
  | cons x xs ih =>
      rw [Scalar.foldOperations, List.forall_mem_append]
      exact ⟨hfits s x xs hs, ih (hnext s x xs hs)⟩

/-- On words, an operation stays in the range if it fits. -/
@[simp] theorem fits_word_iff {op : CostOperation (Word w)} : Scalar.fits op = true ↔ op.Fits :=
  decide_eq_true_iff

/-- The second outcome is the first one as `e` reads it, unless that is an overflow. -/
def Lockstep (e : β → β') (x : Except Interruption β) (y : Except Interruption β') : Prop :=
  x ≠ .error .overflow → y = x.map e

namespace Lockstep

variable {e : σ → σ'} {e' : β → β'}

theorem ok {b : β} : Lockstep e' (.ok b) (.ok (e' b)) := fun _ => rfl

theorem of_eq_map {x : Except Interruption β} {y : Except Interruption β'} (h : y = x.map e') :
    Lockstep e' x y := fun _ => h

variable [ExactCosts]

theorem checked {operations : List (CostOperation (Word w))}
    {operations' : List (CostOperation Int)} {b : β} {b' : β'}
    (h : (∀ op ∈ operations, op.Fits) → b' = e' b) :
    Lockstep e' (Scalar.checked operations b) (Scalar.checked operations' b') := by
  intro hne
  rw [checked_exact]
  cases hchecked : Scalar.checked operations b with
  | error why => exact absurd (hchecked.trans (congrArg _ (Scalar.checked_eq_error hchecked))) hne
  | ok b₁ =>
      obtain ⟨hfits, rfl⟩ := Scalar.checked_eq_ok.mp hchecked
      simp only [fits_word_iff] at hfits
      exact congrArg Except.ok (h hfits)

omit [ExactCosts] in
theorem bind {x : Except Interruption σ} {y : Except Interruption σ'}
    {f : σ → Except Interruption β} {g : σ' → Except Interruption β'} (hx : Lockstep e x y)
    (hf : ∀ a, x = .ok a → Lockstep e' (f a) (g (e a))) : Lockstep e' (x >>= f) (y >>= g) := by
  intro hne
  cases x with
  | error why =>
      rw [hx fun heq => hne (congrArg Except.error (Except.error.inj heq))]
      rfl
  | ok a =>
      rw [hx nofun]
      exact hf a rfl hne

/-- What comes after a guard may use that the operations fit. -/
theorem guard {operations : List (CostOperation (Word w))}
    {operations' : List (CostOperation Int)} {f : Unit → Except Interruption β}
    {g : Unit → Except Interruption β'}
    (h : (∀ op ∈ operations, op.Fits) → Lockstep e' (f ()) (g ())) :
    Lockstep e' (Scalar.inRange operations >>= f) (Scalar.inRange operations' >>= g) := by
  refine bind (e := id) (checked fun _ => rfl) fun _ hguard => h ?_
  simpa only [fits_word_iff] using (Scalar.checked_eq_ok.mp hguard).1

omit [ExactCosts] in
theorem foldlM {f : σ → ι → Except Interruption σ} {g : σ' → ι → Except Interruption σ'}
    (h : ∀ s x, Lockstep e (f s x) (g (e s) x)) (xs : List ι) (s : σ) :
    Lockstep e (xs.foldlM f s) (xs.foldlM g (e s)) := by
  induction xs generalizing s with
  | nil => exact ok
  | cons x xs ih =>
      rw [List.foldlM_cons, List.foldlM_cons]
      exact (h s x).bind fun s' _ => ih s'

omit [ExactCosts] in
theorem iterate {step : σ → Except Interruption (Step σ β)}
    {step' : σ' → Except Interruption (Step σ' β')}
    (h : ∀ s, Lockstep (Step.map e e') (step s) (step' (e s))) (fuel : Nat) (s : σ) :
    Lockstep e' (iterate fuel step s) (iterate fuel step' (e s)) := by
  induction fuel generalizing s with
  | zero => exact fun _ => rfl
  | succ fuel ih =>
      unfold NetworkFlow.iterate
      intro hne
      cases hs : step s with
      | error why =>
          rw [hs] at hne
          rw [h s fun heq => hne (congrArg _ (Except.error.inj (hs.symm.trans heq))), hs]
          rfl
      | ok o =>
          rw [h s (by simp [hs]), hs]
          rw [hs] at hne
          cases o with
          | done b => rfl
          | next s' => exact ih s' hne

end Lockstep

namespace Logged

/-- The second computation is the first one with its value read by `e`, unless that overflows. -/
def Lockstep (e : β → β') (x : Logged β) (y : Logged β') : Prop :=
  x.outcome ≠ .error .overflow → y = e <$> x

namespace Lockstep

variable {e : σ → σ'} {e' : β → β'}

theorem of_eq_map {x : Logged β} {y : Logged β'} (h : y = e' <$> x) : Lockstep e' x y := fun _ => h

theorem refl (x : Logged β) : Lockstep id x x := of_eq_map (id_map x).symm

theorem ofExcept {x : Except Error β} {y : Except Error β'} (h : y = x.map e') :
    Lockstep e' (Logged.ofExcept x) (Logged.ofExcept y) := by
  subst h
  exact of_eq_map (Logged.ofExcept_map x e')

theorem ofRun {x : Except Interruption β} {y : Except Interruption β'}
    (h : NetworkFlow.Lockstep e' x y) : Lockstep e' (Logged.ofRun x) (Logged.ofRun y) := by
  intro hne
  rw [h fun heq => hne (by rw [heq]; rfl)]
  exact Logged.ofRun_map x e'

theorem bind {x : Logged σ} {y : Logged σ'} {f : σ → Logged β} {g : σ' → Logged β'}
    (hx : Lockstep e x y) (hf : ∀ a, x.outcome = .ok a → Lockstep e' (f a) (g (e a))) :
    Lockstep e' (x >>= f) (y >>= g) := by
  intro hne
  refine Logged.bind_eq_map (hx fun heq => hne ?_) fun a ha => hf a ha fun heq => hne ?_
  · exact Logged.outcome_bind_eq_error.mpr (Or.inl heq)
  · exact Logged.outcome_bind_eq_error.mpr (Or.inr ⟨a, ha, heq⟩)

/-- What comes after a guard may use that the operations fit. -/
theorem guard [ExactCosts] {operations : List (CostOperation (Word w))}
    {operations' : List (CostOperation Int)} {f : Unit → Logged β} {g : Unit → Logged β'}
    (h : (∀ op ∈ operations, op.Fits) → Lockstep e' (f ()) (g ())) :
    Lockstep e' (Logged.ofRun (Scalar.inRange operations) >>= f)
      (Logged.ofRun (Scalar.inRange operations') >>= g) := by
  refine bind (e := id) (ofRun (.checked fun _ => rfl)) fun _ hguard => h ?_
  simpa only [fits_word_iff] using
    (Scalar.checked_eq_ok.mp (Logged.outcome_ofRun_eq_ok.mp hguard)).1

/-- What a computation on words returns is what the one on integers does. -/
theorem outcome_eq_ok {x : Logged β} {y : Logged β'} {b : β} (h : Lockstep e' x y)
    (hx : x.outcome = .ok b) : y.outcome = .ok (e' b) := by
  rw [h (by simp [hx]), ← bind_pure_comp]
  exact Logged.outcome_bind_eq_ok.mpr ⟨b, hx, rfl⟩

end Lockstep

end Logged

end NetworkFlow
