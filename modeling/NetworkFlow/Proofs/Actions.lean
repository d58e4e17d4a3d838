import Mathlib.Order.Defs.Unbundled
import NetworkFlow.Logged

/-!
# What actions leave behind

An action is run on a state and leaves one, also if it ends with a fault. A relation between the two
that holds of every step of an action holds of the action (`Action.Respects`), as long as it is
reflexive and transitive: steps that only look something up or are refused change nothing.

An action that looks everything up before its first change leaves the state as it is when it fails
(`Action.AtomicAt`). And an action that reads nothing of what a map of states changes answers on a
state as on its image (`Action.Carries`).

## Main results

* `Respects.bind`, `Carries.bind`: what is inherited from the parts.
* `AtomicAt.look`, `Sure.atomicAt`: looks come first, and what cannot fail comes last.
-/

namespace NetworkFlow

namespace Action

variable {σ α β : Type}

theorem run_get_bind (f : σ → Action σ β) (s : σ) : (get >>= f : Action σ β).run s = (f s).run s :=
  rfl

theorem run_ok_bind (a : α) (f : α → Action σ β) (s : σ) :
    (liftM (Except.ok a : Except Error α) >>= f : Action σ β).run s = (f a).run s := rfl

theorem run_error_bind (cause : Error) (f : α → Action σ β) (s : σ) :
    (liftM (Except.error cause : Except Error α) >>= f : Action σ β).run s =
      (⟨[], .error (.refused cause)⟩, s) := rfl

/-- What follows a look that may fail is run on the same state, if there is a value in the end. -/
theorem run_lift_bind_of_ok {x : Except Error α} {f : α → Action σ β} {s : σ} {b : β}
    (h : ((liftM x >>= f : Action σ β).run s).1.outcome = .ok b) :
    ∃ a, x = .ok a ∧ (liftM x >>= f : Action σ β).run s = (f a).run s := by
  cases x with
  | error cause => cases h
  | ok a => exact ⟨a, rfl, rfl⟩

/-- However the action ends, the state that it leaves is related to the one that it was run on. -/
def Respects (R : σ → σ → Prop) (x : Action σ α) : Prop := ∀ s, R s (x.run s).2

variable {R : σ → σ → Prop}

/-- A step after a look at the state. -/
theorem Respects.of_get {f : σ → Action σ β} (h : ∀ s, Respects R (f s)) :
    Respects R (get >>= f : Action σ β) := fun s => h s s

section Refl

variable [Std.Refl R]

theorem respects_ofLogged (x : Logged α) : Respects R (ofLogged x : Action σ α) :=
  fun s => Std.Refl.refl s

/-- What follows a look that may fail is run on the same state. -/
theorem respects_lift_bind {x : Except Error α} {f : α → Action σ β} {s : σ}
    (h : ∀ a, x = .ok a → R s ((f a).run s).2) : R s ((liftM x >>= f : Action σ β).run s).2 := by
  cases x with
  | error cause => exact Std.Refl.refl s
  | ok a => exact h a rfl

/-- What follows a computation that needs no state is run on the same state. -/
theorem respects_logged_bind {x : Logged α} {f : α → Action σ β} {s : σ}
    (h : ∀ a, x.outcome = .ok a → R s ((f a).run s).2) : R s ((liftM x >>= f : Action σ β).run s).2 := by
  obtain ⟨events, fault | a⟩ := x
  · exact Std.Refl.refl s
  · exact h a rfl

/-- A step after a look that may fail. -/
theorem Respects.of_look {x : Except Error α} {f : α → Action σ β} (h : ∀ a, Respects R (f a)) :
    Respects R (liftM x >>= f : Action σ β) := fun s => respects_lift_bind fun a _ => h a s

/-- A step after a computation that needs no state. -/
theorem Respects.of_logged {x : Logged α} {f : α → Action σ β} (h : ∀ a, Respects R (f a)) :
    Respects R (liftM x >>= f : Action σ β) := by
  intro s
  obtain ⟨events, fault | a⟩ := x
  · exact Std.Refl.refl s
  · exact h a s

theorem respects_refuse (cause : Error) : Respects R (refuse cause : Action σ α) :=
  respects_ofLogged _

/-- Nothing follows a refusal. -/
theorem respects_refused {cause : Error} {f : α → Action σ β} :
    Respects R (refuse cause >>= f : Action σ β) := fun s => Std.Refl.refl s

end Refl

section Trans

variable [IsTrans σ R]

/-- A sequence of two actions respects what both of them do. -/
theorem Respects.bind {x : Action σ α} {f : α → Action σ β} (hx : Respects R x)
    (hf : ∀ a, Respects R (f a)) : Respects R (x >>= f) := by
  intro s
  have h := hx s
  rw [run_bind]
  generalize x.run s = result at h
  obtain ⟨⟨events, fault | a⟩, s'⟩ := result
  · exact h
  · exact IsTrans.trans _ _ _ h (hf a s')

end Trans

@[simp] theorem run_map_snd (f : α → β) (x : Action σ α) (s : σ) :
    ((f <$> x).run s).2 = (x.run s).2 := by
  show ((x >>= fun a => pure (f a)).run s).2 = _
  rw [run_bind]
  generalize x.run s = result
  obtain ⟨⟨events, fault | a⟩, s'⟩ := result <;> rfl

theorem outcome_map_eq_ok {f : α → β} {x : Action σ α} {s : σ} {b : β} :
    ((f <$> x).run s).1.outcome = .ok b ↔ ∃ a, (x.run s).1.outcome = .ok a ∧ f a = b := by
  show ((x >>= fun a => pure (f a)).run s).1.outcome = _ ↔ _
  rw [run_bind]
  generalize x.run s = result
  obtain ⟨⟨events, fault | a⟩, s'⟩ := result <;> simp

/-! ## Actions that fail before they change anything -/

/-- If the action fails, it leaves the state that it was run on. -/
def AtomicAt (s : σ) (x : Action σ α) : Prop :=
  ∀ fault, (x.run s).1.outcome = .error fault → (x.run s).2 = s

/-- The action cannot fail. -/
def Sure (x : Action σ α) : Prop := ∀ s, ∃ a, (x.run s).1.outcome = .ok a

section Atomic

variable {s : σ} {x : Action σ α} {f : α → Action σ β}

theorem Sure.bind (hx : Sure x) (hf : ∀ a, Sure (f a)) : Sure (x >>= f) := by
  intro s
  obtain ⟨a, ha⟩ := hx s
  rw [run_bind]
  generalize x.run s = result at ha
  obtain ⟨⟨events, outcome⟩, s'⟩ := result
  cases ha
  exact hf a s'

theorem Sure.atomicAt (hx : Sure x) : AtomicAt s x := by
  intro fault hfault
  obtain ⟨a, ha⟩ := hx s
  rw [ha] at hfault
  cases hfault

theorem atomicAt_ofLogged (y : Logged α) : AtomicAt s (ofLogged y : Action σ α) := fun _ _ => rfl

theorem AtomicAt.of_get {g : σ → Action σ β} (h : AtomicAt s (g s)) : AtomicAt s (get >>= g) := h

/-- What follows a look is run on the same state. -/
theorem AtomicAt.look {y : Except Error α} (h : ∀ a, y = .ok a → AtomicAt s (f a)) :
    AtomicAt s (liftM y >>= f) := by
  cases y with
  | error cause => exact fun _ _ => rfl
  | ok a => exact h a rfl

/-- What follows a computation that needs no state is run on the same state. -/
theorem AtomicAt.logged {y : Logged α} (h : ∀ a, AtomicAt s (f a)) :
    AtomicAt s (liftM y >>= f) := by
  obtain ⟨events, fault | a⟩ := y
  · exact fun _ _ => rfl
  · exact h a

theorem AtomicAt.map (hx : AtomicAt s x) (g : α → β) : AtomicAt s (g <$> x) := by
  intro fault hfault
  rw [run_map_snd]
  refine hx fault ?_
  change ((x >>= fun a => pure (g a)).run s).1.outcome = _ at hfault
  rw [run_bind] at hfault
  generalize x.run s = result at hfault
  obtain ⟨⟨events, cause | a⟩, s'⟩ := result
  · cases hfault
    rfl
  · cases hfault

end Atomic

/-! ## Actions on a state and on its image -/

/-- The first action, run on the image of a state, answers as the second one does on the state, and
leaves the image of what that one leaves. -/
def Carries (f : σ → σ) (s : σ) (x' x : Action σ α) : Prop :=
  x'.run (f s) = ((x.run s).1, f (x.run s).2)

section Carries

variable {f : σ → σ} {s : σ} {x x' : Action σ α} {k k' : α → Action σ β}

theorem carries_ofLogged (y : Logged α) : Carries f s (ofLogged y : Action σ α) (ofLogged y) := rfl

theorem Carries.of_get {g : σ → Action σ β} (h : Carries f s (g (f s)) (g s)) :
    Carries f s (get >>= g) (get >>= g) := h

/-- A look may see an image too, if what follows does not tell it from what it is the image of. -/
theorem Carries.look_map {y y' : Except Error α} {e : α → α} (hy : y' = e <$> y)
    (h : ∀ a, Carries f s (k' (e a)) (k a)) : Carries f s (liftM y' >>= k') (liftM y >>= k) := by
  subst hy
  cases y with
  | error cause => rfl
  | ok a => exact h a

/-- A look at something that the map of states does not change. -/
theorem Carries.look {y y' : Except Error α} (hy : y' = y) (h : ∀ a, Carries f s (k' a) (k a)) :
    Carries f s (liftM y' >>= k') (liftM y >>= k) :=
  look_map (e := id) (by rw [hy, id_map]) h

/-- Two looks, of which only the first one sees what the map of states changes. -/
theorem Carries.look_through {γ : Type} {y y' : Except Error γ} {view : γ → Except Error α}
    (hy : y' >>= view = y >>= view) (h : ∀ a, Carries f s (k' a) (k a)) :
    Carries f s (liftM y' >>= fun c => liftM (view c) >>= k')
      (liftM y >>= fun c => liftM (view c) >>= k) := by
  have hmerge : ∀ (y : Except Error γ) (k : α → Action σ β),
      (liftM y >>= fun c => liftM (view c) >>= k : Action σ β) = liftM (y >>= view) >>= k := by
    intro y k
    cases y <;> rfl
  rw [hmerge, hmerge]
  exact look hy h

/-- A computation that needs no state. -/
theorem Carries.logged {y : Logged α} (h : ∀ a, Carries f s (k' a) (k a)) :
    Carries f s (liftM y >>= k') (liftM y >>= k) := by
  obtain ⟨events, fault | a⟩ := y
  · rfl
  · have hrun : ∀ (k : α → Action σ β) (s : σ), ((liftM (⟨events, .ok a⟩ : Logged α) >>= k :
        Action σ β).run s) = (⟨events ++ ((k a).run s).1.events, ((k a).run s).1.outcome⟩,
          ((k a).run s).2) := fun _ _ => rfl
    unfold Carries
    rw [hrun, hrun, h a]

theorem Carries.bind (hx : Carries f s x' x) (hk : ∀ a s, Carries f s (k' a) (k a)) :
    Carries f s (x' >>= k') (x >>= k) := by
  unfold Carries at hx ⊢
  rw [run_bind, run_bind, hx]
  generalize x.run s = result
  obtain ⟨⟨events, fault | a⟩, s'⟩ := result
  · rfl
  · have hnext : (k' a).run (f s') = (((k a).run s').1, f ((k a).run s').2) := hk a s'
    simp only [hnext]

theorem Carries.map (hx : Carries f s x' x) (g : α → β) : Carries f s (g <$> x') (g <$> x) :=
  hx.bind fun a _ => carries_ofLogged (.ofValue (g a))

end Carries

end Action

end NetworkFlow
