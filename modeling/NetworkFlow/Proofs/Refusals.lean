import NetworkFlow.Amount
import NetworkFlow.Logged
import NetworkFlow.Table

/-!
# Computations that may be refused

A sequence of computations is refused by the first of them that is. Most are
refused for some causes only (`Logged.RefusesOnly`), or for none at all, and
a computation that is counted down from a number gives the same answer from some
number on (`Logged.Ends`); each of the two follows for a sequence from its parts, and so does
that no overflow ends it (`Logged.NoOverflow`).

## Main results

* `bind_eq_ok`, `bind_eq_error`, `map_eq_ok`: how a sequence of two computations ends.
* `exists_step_of_foldlM`, `exists_error_of_foldlM`: a fold takes every step or fails in one.
* `getElem_of_mapM`, `exists_error_of_mapM`: a map has every value or fails in one.
* `Logged.Ends.bind`, `Logged.RefusesOnly.bind`, `Logged.NoOverflow.bind`: what is inherited from
  the parts.
* `Logged.bind_eq_map`: sequences that agree up to how their values are read.
-/

namespace NetworkFlow

section Except

variable {α β σ ι ε : Type}

theorem bind_eq_ok {x : Except ε α} {f : α → Except ε β} {b : β} :
    x >>= f = .ok b ↔ ∃ a, x = .ok a ∧ f a = .ok b := by
  cases x with
  | error e => simp [bind, Except.bind]
  | ok a => simp [bind, Except.bind]

theorem bind_eq_error {x : Except ε α} {f : α → Except ε β} {e : ε} :
    x >>= f = .error e ↔ x = .error e ∨ ∃ a, x = .ok a ∧ f a = .error e := by
  cases x with
  | error e => simp [bind, Except.bind]
  | ok a => simp [bind, Except.bind]

theorem map_eq_ok {x : Except ε α} {f : α → β} {b : β} :
    x.map f = .ok b ↔ ∃ a, x = .ok a ∧ f a = b := by
  cases x with
  | error e => simp [Except.map]
  | ok a => simp [Except.map]

theorem ok_of_toOption {x : Except ε α} {a : α} (h : x.toOption = some a) :
    x = .ok a := by
  cases x with
  | error e => cases h
  | ok b => exact congrArg Except.ok (Option.some.inj h)

theorem error_of_match {x : Except ε α} {e : ε}
    (h : (match x with
      | .ok _ => none
      | .error e => some e) = some e) : x = .error e := by
  cases x with
  | error e => exact congrArg Except.error (Option.some.inj h)
  | ok a => cases h

/-- A fold that returns a value has taken every step. -/
theorem exists_step_of_foldlM {step : σ → ι → Except ε σ} {xs : List ι} {s s' : σ}
    (h : xs.foldlM step s = .ok s') : ∀ x ∈ xs, ∃ t t', step t x = .ok t' := by
  induction xs generalizing s with
  | nil => simp
  | cons y ys ih =>
      rw [List.foldlM_cons] at h
      obtain ⟨t, hy, hrest⟩ := bind_eq_ok.mp h
      intro x hx
      rcases List.mem_cons.mp hx with rfl | hx
      · exact ⟨s, t, hy⟩
      · exact ih hrest x hx

/-- A fold fails only as one of its steps does. -/
theorem exists_error_of_foldlM {step : σ → ι → Except ε σ} {xs : List ι} {s : σ} {e : ε}
    (h : xs.foldlM step s = .error e) : ∃ x ∈ xs, ∃ t, step t x = .error e := by
  induction xs generalizing s with
  | nil => cases h
  | cons y ys ih =>
      rw [List.foldlM_cons] at h
      rcases bind_eq_error.mp h with hy | ⟨t, -, hrest⟩
      · exact ⟨y, by simp, s, hy⟩
      · obtain ⟨x, hx, hstep⟩ := ih hrest
        exact ⟨x, List.mem_cons_of_mem _ hx, hstep⟩

private theorem exists_error_of_mapM_list {f : α → Except ε β} {xs : List α} {e : ε}
    (h : xs.mapM f = .error e) : ∃ x ∈ xs, f x = .error e := by
  induction xs with
  | nil => cases h
  | cons x xs ih =>
      rw [List.mapM_cons] at h
      rcases bind_eq_error.mp h with hx | ⟨y, -, h⟩
      · exact ⟨x, by simp, hx⟩
      · rcases bind_eq_error.mp h with hxs | ⟨ys, -, h⟩
        · obtain ⟨y, hy, hfy⟩ := ih hxs
          exact ⟨y, List.mem_cons_of_mem _ hy, hfy⟩
        · cases h

private theorem getElem_of_mapM_list {f : α → Except ε β} {xs : List α} {ys : List β}
    (h : xs.mapM f = .ok ys) (i : Nat) (hx : i < xs.length) (hy : i < ys.length) :
    f xs[i] = .ok ys[i] := by
  induction xs generalizing ys i with
  | nil => cases hx
  | cons x xs ih =>
      rw [List.mapM_cons] at h
      obtain ⟨y, hfx, h⟩ := bind_eq_ok.mp h
      obtain ⟨ys, hys, h⟩ := bind_eq_ok.mp h
      cases h
      cases i with
      | zero => exact hfx
      | succ i => exact ih hys i _ _

/-- A map over a table is one over the list of its values. -/
private theorem toList_mapM {n : Nat} (f : α → Except ε β) (xs : Table α n) :
    (Table.toList <$> xs.mapM f : Except ε (List β)) = xs.toList.mapM f := by
  have harray : Vector.toArray <$> xs.entries.mapM f = xs.entries.toArray.mapM f :=
    Vector.toArray_mapM
  have hlists : Array.toList <$> xs.entries.toArray.mapM f = xs.entries.toArray.toList.mapM f :=
    Array.toList_mapM
  rw [← harray] at hlists
  unfold Table.mapM
  show _ = xs.entries.toArray.toList.mapM f
  rw [← hlists]
  cases xs.entries.mapM f <;> rfl

/-- A map over a table fails only as one of its values does. -/
theorem exists_error_of_mapM {n : Nat} {f : α → Except ε β} {xs : Table α n} {e : ε}
    (h : xs.mapM f = .error e) : ∃ i : Fin n, f xs[i] = .error e := by
  have hlist := toList_mapM f xs
  rw [h] at hlist
  obtain ⟨x, hx, hfx⟩ := exists_error_of_mapM_list hlist.symm
  have hmem : x ∈ xs.entries := by simpa [Table.toList] using hx
  obtain ⟨i, hi, rfl⟩ := Vector.mem_iff_getElem.mp hmem
  exact ⟨⟨i, hi⟩, hfx⟩

/-- A map over a table that does not fail has succeeded for each of its values. -/
theorem getElem_of_mapM {n : Nat} {f : α → Except ε β} {xs : Table α n} {ys : Table β n}
    (h : xs.mapM f = .ok ys) (i : Fin n) : f xs[i] = .ok ys[i] := by
  have hlist := toList_mapM f xs
  rw [h] at hlist
  have hget := getElem_of_mapM_list hlist.symm i (by simp [Table.toList]) (by simp [Table.toList])
  simpa [Table.toList, Table.getElem_eq] using hget

/-- Steps that may be refused can be lifted one by one or all at once. -/
theorem outcome_foldlM_liftM (step : σ → ι → Except Error σ) (xs : List ι) (s : σ) :
    (xs.foldlM (fun s x => (liftM (step s x) : Logged σ)) s).outcome =
      (Logged.ofExcept (xs.foldlM step s)).outcome := by
  induction xs generalizing s with
  | nil => rfl
  | cons x xs ih =>
      rw [List.foldlM_cons, List.foldlM_cons, Logged.outcome_bind]
      show (Logged.ofExcept (step s x)).outcome.bind _ = _
      cases step s x with
      | error e => rfl
      | ok t => exact ih t

end Except

namespace Logged

variable {α β : Type}

/-- The computation is not interrupted: it has a value or is refused. -/
def Returns (x : Logged α) : Prop := ∀ why, x.outcome ≠ .error (.interrupted why)

theorem returns_of_ok {x : Logged α} {a : α} (h : x.outcome = .ok a) : x.Returns := by
  intro why heq
  rw [h] at heq
  cases heq

theorem Returns.left {x : Logged α} {f : α → Logged β} (h : (x >>= f).Returns) : x.Returns :=
  fun why hx => h why (outcome_bind_eq_error.mpr (Or.inl hx))

theorem Returns.right {x : Logged α} {f : α → Logged β} (h : (x >>= f).Returns) {a : α}
    (hx : x.outcome = .ok a) : (f a).Returns :=
  fun why hfa => h why (outcome_bind_eq_error.mpr (Or.inr ⟨a, hx, hfa⟩))

/-- A computation that is counted down from a number ends: from some number on its outcome is
the same, a value or a refusal. -/
def Ends (x : Nat → Logged α) : Prop :=
  ∃ fuel r, (∀ why, r ≠ .error (.interrupted why)) ∧
    ∀ fuel', fuel ≤ fuel' → (x fuel').outcome = r

theorem Ends.exists_returns {x : Nat → Logged α} (h : Ends x) : ∃ fuel, (x fuel).Returns := by
  obtain ⟨fuel, r, hr, h⟩ := h
  refine ⟨fuel, fun why => ?_⟩
  rw [h fuel (Nat.le_refl fuel)]
  exact hr why

theorem ends_const {x : Logged α} (h : x.Returns) : Ends fun _ => x :=
  ⟨0, x.outcome, h, fun _ _ => rfl⟩

theorem ends_ofExcept (x : Except Error α) : Ends fun _ => ofExcept x := by
  apply ends_const
  intro why
  cases x <;> simp [ofExcept, ofValue, refuse]

theorem ends_ofRun {x : Nat → Except Interruption α}
    (hMono : ∀ f f', f ≤ f' → Persists (x f) (x f')) (h : ∃ fuel a, x fuel = .ok a) :
    Ends fun fuel => ofRun (x fuel) := by
  obtain ⟨fuel, a, h⟩ := h
  refine ⟨fuel, .ok a, by simp, fun fuel' hfuel => ?_⟩
  exact outcome_ofRun_eq_ok.mpr ((hMono fuel fuel' hfuel).eq_ok h)

/-- A sequence of computations ends if the first one does and each one that can follow. -/
theorem Ends.bind {x : Nat → Logged α} {f : α → Nat → Logged β} (h : Ends x)
    (hf : ∀ fuel a, (x fuel).outcome = .ok a → Ends (f a)) :
    Ends fun fuel => x fuel >>= fun a => f a fuel := by
  obtain ⟨f₁, r, hr, h⟩ := h
  cases r with
  | error fault =>
      refine ⟨f₁, .error fault, by simpa using hr, fun fuel' hfuel => ?_⟩
      simp only [outcome_bind, h fuel' hfuel]
      rfl
  | ok a =>
      obtain ⟨f₂, r₂, hr₂, h₂⟩ := hf f₁ a (h f₁ (Nat.le_refl f₁))
      refine ⟨max f₁ f₂, r₂, hr₂, fun fuel' hfuel => ?_⟩
      simp only [outcome_bind, h fuel' (by omega)]
      exact h₂ fuel' (by omega)

/-- A computation that is refused for no other causes than some. -/
def RefusesOnly (causes : Error → Prop) (x : Logged α) : Prop :=
  ∀ cause, x.outcome = .error (.refused cause) → causes cause

variable {causes : Error → Prop}

theorem refusesOnly_of_ok {x : Logged α} {a : α} (h : x.outcome = .ok a) :
    x.RefusesOnly causes := by
  intro cause hcause
  rw [h] at hcause
  cases hcause

theorem refusesOnly_ofExcept {x : Except Error α} (h : ∀ cause, x = .error cause → causes cause) :
    (ofExcept x).RefusesOnly causes := by
  intro cause hcause
  cases x with
  | ok a => cases hcause
  | error e =>
      cases hcause
      exact h _ rfl

theorem refusesOnly_ofRun (x : Except Interruption α) : (ofRun x).RefusesOnly causes := by
  intro cause hcause
  cases x <;> cases hcause

theorem RefusesOnly.left {x : Logged α} {f : α → Logged β} (h : (x >>= f).RefusesOnly causes) :
    x.RefusesOnly causes :=
  fun cause hx => h cause (outcome_bind_eq_error.mpr (Or.inl hx))

theorem RefusesOnly.right {x : Logged α} {f : α → Logged β} (h : (x >>= f).RefusesOnly causes)
    {a : α} (hx : x.outcome = .ok a) : (f a).RefusesOnly causes :=
  fun cause hfa => h cause (outcome_bind_eq_error.mpr (Or.inr ⟨a, hx, hfa⟩))

theorem returns_ofExcept (x : Except Error α) : (ofExcept x).Returns := by
  intro why h
  cases x <;> cases h

/-- A computation that returns and refuses nothing has a value. -/
theorem Returns.exists_ok {x : Logged α} (h : x.Returns) (hrefuses : x.RefusesOnly fun _ => False) :
    ∃ a, x.outcome = .ok a := by
  cases hx : x.outcome with
  | ok a => exact ⟨a, rfl⟩
  | error fault =>
      cases fault with
      | refused cause => exact (hrefuses cause hx).elim
      | interrupted why => exact absurd hx (h why)

theorem RefusesOnly.bind {x : Logged α} {f : α → Logged β} (h : x.RefusesOnly causes)
    (hf : ∀ a, x.outcome = .ok a → (f a).RefusesOnly causes) : (x >>= f).RefusesOnly causes := by
  intro cause hcause
  rw [outcome_bind] at hcause
  cases hx : x.outcome with
  | error fault =>
      rw [hx] at hcause
      cases hcause
      exact h _ hx
  | ok a =>
      rw [hx] at hcause
      exact hf a hx cause hcause

/-- The computation is not ended by an overflow. -/
def NoOverflow (x : Logged α) : Prop := x.outcome ≠ .error .overflow

theorem noOverflow_of_ok {x : Logged α} {a : α} (h : x.outcome = .ok a) : x.NoOverflow :=
  fun heq => nomatch h.symm.trans heq

theorem noOverflow_ofExcept (x : Except Error α) : (ofExcept x).NoOverflow := by
  intro h
  cases x <;> cases h

theorem noOverflow_ofRun {x : Except Interruption α} (h : x ≠ .error .overflow) :
    (ofRun x).NoOverflow := by
  intro heq
  obtain ⟨why, hwhy, hfault⟩ := outcome_ofRun_eq_error.mp heq
  cases hfault
  exact h hwhy

theorem NoOverflow.bind {x : Logged α} {f : α → Logged β} (h : x.NoOverflow)
    (hf : ∀ a, x.outcome = .ok a → (f a).NoOverflow) : (x >>= f).NoOverflow := by
  intro heq
  rcases outcome_bind_eq_error.mp heq with hx | ⟨a, hx, hfa⟩
  · exact h hx
  · exact hf a hx hfa

section Map

variable {α' β' : Type}

/-- A sequence of computations is another one with its value read in another way if its parts are,
for the values that the first one can return. -/
theorem bind_eq_map {x : Logged α} {x' : Logged α'} {e : α → α'} {f : α → Logged β}
    {f' : α' → Logged β'} {g : β → β'} (h : x' = e <$> x)
    (hf : ∀ a, x.outcome = .ok a → f' (e a) = g <$> f a) : x' >>= f' = g <$> (x >>= f) := by
  subst h
  rw [bind_map_left, map_bind]
  obtain ⟨events, _ | a⟩ := x
  · rfl
  · simp only [ok_bind, hf a rfl]

theorem ofRun_map (x : Except Interruption α) (e : α → α') :
    ofRun (x.map e) = e <$> ofRun x := by
  cases x <;> rfl

theorem ofExcept_map (x : Except Error α) (e : α → α') :
    ofExcept (x.map e) = e <$> ofExcept x := by
  cases x <;> rfl

end Map

end Logged

end NetworkFlow
