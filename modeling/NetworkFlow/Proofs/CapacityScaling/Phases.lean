import NetworkFlow.Proofs.CapacityScaling.Augment

/-!
# Phases of capacity scaling

The loops are nested: ways from one node, all nodes in turn, and that again until
nothing moves. With a positive `delta`, every way used lowers the surplus of the
state, so each of these loops ends, and a phase ends when no node has a large excess
from which a large deficit can be reached (`Drained`). A factor beyond the signed
numbers may make `delta` negative; a phase then either uses no way at all or does not
end, as a way once used can be used for ever.

Costs play no part in this, but for an overflow, which is an end as well. What every
augmentation keeps, a phase keeps: in any arithmetic a state stays sound, and with exact
costs no wide residual arc gets a negative reduced cost.

## Main results

* `phase_ends`, `drained_of_phase`: a phase ends, and no node is left to be drained.
* `phase_invariant`: what a phase keeps.
* `sound_phase`, `inPhase_of_phase`: what it leaves.
-/

namespace NetworkFlow.CapacityScaling

open scoped ExactCosts

variable {n m : Nat} {delta : Int} {α : Type} [Scalar α] {p : Indexed n m α} {st : State n m α}
  {s : Fin n} {g g' : Progress n m α} {fuel fuel' : Nat}

section Drain

/-- A node without a large excess, or one from which no large deficit can be reached. -/
def Drained (p : Indexed n m α) (delta : Int) (st : State n m α) (s : Fin n) : Prop :=
  st.excess[s] < delta ∨ ∃ nodes, Sealed p st s delta nodes

theorem drainStep_next (hrows : p.rows = p.toNetwork.rows)
    (hstep : drainStep p delta s g = .next g') :
    delta ≤ g.state.excess[s] ∧ ∃ way, nearestDeficit p g.state s delta = some way ∧
      way.Usable p g.state s delta ∧ g'.state = augment p g.state s way ∧ g'.moved = true := by
  unfold drainStep at hstep
  split at hstep
  · cases hstep
  · rename_i hs
    cases hway : nearestDeficit p g.state s delta with
    | none =>
        rw [hway] at hstep
        cases hstep
    | some way =>
        rw [hway] at hstep
        cases hstep
        exact ⟨not_lt.mp hs, way, rfl, usable_route hrows hway, rfl, rfl⟩

theorem drainStep_done (hrows : p.rows = p.toNetwork.rows)
    (hstep : drainStep p delta s g = .done g') : g' = g ∧ Drained p delta g.state s := by
  unfold drainStep at hstep
  split at hstep
  · rename_i hs
    cases hstep
    exact ⟨rfl, Or.inl hs⟩
  · cases hway : nearestDeficit p g.state s delta with
    | none =>
        rw [hway] at hstep
        cases hstep
        exact ⟨rfl, Or.inr (exists_sealed hrows hway)⟩
    | some way =>
        rw [hway] at hstep
        cases hstep

/-- A way that moves nothing can be used again. -/
theorem usable_of_drainStep (hrows : p.rows = p.toNetwork.rows) (hdelta : delta ≤ 0)
    (hstep : drainStep p delta s g = .next g') :
    delta ≤ g'.state.excess[s] ∧ ∃ way : Route n m α, way.Usable p g'.state s delta := by
  obtain ⟨-, way, -, hway, heq, -⟩ := drainStep_next hrows hstep
  obtain ⟨hway', hs'⟩ := hway.augment hdelta
  rw [← heq] at hway' hs'
  exact ⟨hs', way, hway'⟩

theorem drainStep_ne_done (hrows : p.rows = p.toNetwork.rows) (hs : delta ≤ g.state.excess[s])
    {way : Route n m α} (hway : way.Usable p g.state s delta) : drainStep p delta s g ≠ .done g' := by
  intro hstep
  rcases (drainStep_done hrows hstep).2 with hless | ⟨nodes, hsealed⟩
  · omega
  · exact absurd hway (hsealed.not_usable way)

/-- With a `delta` that is not positive, draining a node uses no way, if it ends. -/
theorem drain_of_nonpos (hrows : p.rows = p.toNetwork.rows) (hdelta : delta ≤ 0)
    (hdrain : drain p fuel delta g s = .ok g') : g' = g := by
  cases fuel with
  | zero => cases hdrain
  | succ fuel =>
      unfold drain iterate at hdrain
      split at hdrain
      · cases hdrain
      · rename_i g₁ hstep
        cases hdrain
        exact (drainStep_done hrows (Scalar.checked_eq_ok.mp hstep).2).1
      · -- a state with a usable way leads to another one, so no result is ever reached from it
        rename_i g₁ hstep
        refine (iterate_invariant (P := fun g : Progress n m α => delta ≤ g.state.excess[s] ∧
          ∃ way : Route n m α, way.Usable p g.state s delta) (Q := fun _ => False) ?_ ?_
          (usable_of_drainStep hrows hdelta (Scalar.checked_eq_ok.mp hstep).2) hdrain).elim
        · exact fun _ _ _ hnext =>
            usable_of_drainStep hrows hdelta (Scalar.checked_eq_ok.mp hnext).2
        · rintro _ _ ⟨hs, way, hway⟩ hdone
          exact drainStep_ne_done hrows hs hway (Scalar.checked_eq_ok.mp hdone).2

/-- What every augmentation for a positive `delta` keeps, draining a node keeps. -/
theorem drain_invariant {P : State n m α → Prop} (hrows : p.rows = p.toNetwork.rows)
    (hkeep : 1 ≤ delta → ∀ st s way, P st → delta ≤ st.excess[s] →
      nearestDeficit p st s delta = some way → P (augment p st s way))
    (h : P g.state) (hdrain : drain p fuel delta g s = .ok g') : P g'.state := by
  by_cases hdelta : 1 ≤ delta
  · refine iterate_invariant (P := fun g => P g.state) (Q := fun g => P g.state) ?_ ?_ h hdrain
    · intro g₁ g₂ h₁ hstep
      obtain ⟨hs, way, hfound, -, heq, -⟩ := drainStep_next hrows (Scalar.checked_eq_ok.mp hstep).2
      rw [heq]
      exact hkeep hdelta _ _ way h₁ hs hfound
    · intro g₁ g₂ h₁ hstep
      rw [(drainStep_done hrows (Scalar.checked_eq_ok.mp hstep).2).1]
      exact h₁
  · rw [drain_of_nonpos hrows (by omega) hdrain]
    exact h

/-- Either nothing has happened, or ways were used and the surplus is lower. -/
def Advanced (g g' : Progress n m α) : Prop :=
  g' = g ∨ (g'.moved = true ∧ surplus g'.state < surplus g.state)

omit [Scalar α] in
theorem Advanced.trans {g₁ g₂ g₃ : Progress n m α} (h : Advanced g₁ g₂)
    (h' : Advanced g₂ g₃) : Advanced g₁ g₃ := by
  rcases h' with rfl | ⟨hmoved, hless⟩
  · exact h
  · rcases h with rfl | ⟨-, hless'⟩
    · exact Or.inr ⟨hmoved, hless⟩
    · exact Or.inr ⟨hmoved, hless.trans hless'⟩

/-- Every way used lowers the surplus. -/
theorem surplus_drainStep (hrows : p.rows = p.toNetwork.rows) (hdelta : 1 ≤ delta)
    (hstep : drainStep p delta s g = .next g') :
    g'.moved = true ∧ surplus g'.state < surplus g.state := by
  obtain ⟨hs, way, -, hway, heq, hmoved⟩ := drainStep_next hrows hstep
  rw [heq]
  exact ⟨hmoved, surplus_augment hdelta hway hs⟩

/-- Draining a node ends. -/
theorem drain_ends (hrows : p.rows = p.toNetwork.rows) (hdelta : 1 ≤ delta)
    (g : Progress n m α) (s : Fin n) : ∃ fuel, drain p fuel delta g s ≠ .error .outOfFuel :=
  exists_iterate_ne (measure fun g : Progress n m α => surplus g.state).wf
    (P := fun _ => True) (fun _ _ => Scalar.checked_ne_outOfFuel)
    (fun _ _ _ hstep =>
      ⟨trivial, (surplus_drainStep hrows hdelta (Scalar.checked_eq_ok.mp hstep).2).2⟩)
    trivial

/-- What draining a node leaves. -/
theorem drain_spec (hrows : p.rows = p.toNetwork.rows) (hdelta : 1 ≤ delta)
    (hdrain : drain p fuel delta g s = .ok g') :
    Advanced g g' ∧ Drained p delta g'.state s := by
  refine iterate_invariant (P := fun g₁ => Advanced g g₁)
    (Q := fun g' => Advanced g g' ∧ Drained p delta g'.state s) ?_ ?_ (Or.inl rfl) hdrain
  · intro g₁ g₂ hadv hstep
    exact hadv.trans (Or.inr (surplus_drainStep hrows hdelta (Scalar.checked_eq_ok.mp hstep).2))
  · intro g₁ g₂ hadv hstep
    obtain ⟨rfl, hdrained⟩ := drainStep_done hrows (Scalar.checked_eq_ok.mp hstep).2
    exact ⟨hadv, hdrained⟩

theorem drain_mono (hfuel : fuel ≤ fuel') (g : Progress n m α) (s : Fin n) :
    Persists (drain p fuel delta g s) (drain p fuel' delta g s) :=
  .iterate (fun _ => .rfl) hfuel

end Drain

section Sweep

theorem foldlM_drain_invariant {P : State n m α → Prop} (hrows : p.rows = p.toNetwork.rows)
    (hkeep : 1 ≤ delta → ∀ st s way, P st → delta ≤ st.excess[s] →
      nearestDeficit p st s delta = some way → P (augment p st s way))
    {nodes : List (Fin n)} (h : P g.state)
    (hfold : nodes.foldlM (drain p fuel delta) g = .ok g') : P g'.state := by
  induction nodes generalizing g with
  | nil =>
      cases hfold
      exact h
  | cons s nodes ih =>
      rw [List.foldlM_cons] at hfold
      obtain ⟨g₁, hdrain, hrest⟩ := bind_eq_ok.mp hfold
      exact ih (drain_invariant hrows hkeep h hdrain) hrest

/-- Draining nodes in turn ends. -/
theorem foldlM_drain_ends (hrows : p.rows = p.toNetwork.rows) (hdelta : 1 ≤ delta)
    (nodes : List (Fin n)) (g : Progress n m α) :
    ∃ fuel, nodes.foldlM (drain p fuel delta) g ≠ .error .outOfFuel := by
  induction nodes generalizing g with
  | nil => exact ⟨0, nofun⟩
  | cons s nodes ih =>
      obtain ⟨f₁, h₁⟩ := drain_ends hrows hdelta g s
      cases hdrain : drain p f₁ delta g s with
      | error why =>
          refine ⟨f₁, ?_⟩
          rw [List.foldlM_cons, hdrain]
          exact fun h => h₁ (hdrain.trans h)
      | ok g₁ =>
          obtain ⟨f₂, h₂⟩ := ih g₁
          refine ⟨f₁ + f₂, ?_⟩
          rw [List.foldlM_cons, (drain_mono (by omega) g s).eq_ok hdrain]
          show nodes.foldlM (drain p (f₁ + f₂) delta) g₁ ≠ _
          rwa [Persists.foldlM (drain_mono (by omega)) nodes g₁ h₂]

/-- What draining nodes in turn leaves: if nothing has moved, all of them are drained. -/
theorem foldlM_drain_spec (hrows : p.rows = p.toNetwork.rows) (hdelta : 1 ≤ delta)
    {nodes : List (Fin n)} (hfold : nodes.foldlM (drain p fuel delta) g = .ok g') :
    Advanced g g' ∧ (g' = g → ∀ s ∈ nodes, Drained p delta g.state s) := by
  induction nodes generalizing g with
  | nil =>
      cases hfold
      exact ⟨Or.inl rfl, fun _ => by simp⟩
  | cons s nodes ih =>
      rw [List.foldlM_cons] at hfold
      obtain ⟨g₁, hdrain, hrest⟩ := bind_eq_ok.mp hfold
      obtain ⟨hadv, hdrained⟩ := drain_spec hrows hdelta hdrain
      obtain ⟨hadv', hall⟩ := ih hrest
      refine ⟨hadv.trans hadv', fun heq => ?_⟩
      -- a surplus that is the same at the end has not been lowered on the way
      obtain rfl : g₁ = g := by
        rcases hadv with h | ⟨-, hless⟩
        · exact h
        · rcases hadv' with h' | ⟨-, hless'⟩
          · exact h'.symm.trans heq
          · rw [heq] at hless'
            omega
      intro x hx
      rcases List.mem_cons.mp hx with rfl | hx
      · exact hdrained
      · exact hall heq x hx

theorem sweepStep_mono (hfuel : fuel ≤ fuel') (g : Progress n m α) :
    Persists (sweepStep p fuel delta g) (sweepStep p fuel' delta g) :=
  (Persists.foldlM (drain_mono hfuel) _ _).bind fun _ => .rfl

theorem sweepStep_invariant {P : State n m α → Prop} (hrows : p.rows = p.toNetwork.rows)
    (hkeep : 1 ≤ delta → ∀ st s way, P st → delta ≤ st.excess[s] →
      nearestDeficit p st s delta = some way → P (augment p st s way))
    (h : P g.state) {o : Step (Progress n m α) (Progress n m α)}
    (hstep : sweepStep p fuel delta g = .ok o) :
    ∃ g₁, P g₁.state ∧ (o = .next g₁ ∨ o = .done g₁) := by
  obtain ⟨g₁, hfold, hrest⟩ := bind_eq_ok.mp hstep
  refine ⟨g₁, foldlM_drain_invariant (g := { g with moved := false }) hrows hkeep h hfold, ?_⟩
  have hrest := Except.ok.inj hrest
  split at hrest
  · exact Or.inl hrest.symm
  · exact Or.inr hrest.symm

/-- What one sweep over the nodes leaves. -/
theorem sweepStep_spec (hrows : p.rows = p.toNetwork.rows) (hdelta : 1 ≤ delta)
    {o : Step (Progress n m α) (Progress n m α)} (hstep : sweepStep p fuel delta g = .ok o) :
    (∃ g', o = .next g' ∧ surplus g'.state < surplus g.state) ∨
      ∃ g', o = .done g' ∧ ∀ s, Drained p delta g'.state s := by
  obtain ⟨g₁, hfold, hrest⟩ := bind_eq_ok.mp hstep
  obtain ⟨hadv, hall⟩ := foldlM_drain_spec (g := { g with moved := false }) hrows hdelta hfold
  cases hmoved : g₁.moved with
  | true =>
      rw [hmoved] at hrest
      cases hrest
      rcases hadv with rfl | ⟨-, hless⟩
      · cases hmoved
      · exact Or.inl ⟨g₁, rfl, hless⟩
  | false =>
      rw [hmoved] at hrest
      cases hrest
      rcases hadv with rfl | ⟨hmoved', -⟩
      · exact Or.inr ⟨_, rfl, fun s => hall rfl s (List.mem_finRange s)⟩
      · rw [hmoved] at hmoved'
        cases hmoved'

end Sweep

section Phase

/-- A phase fills the wide arcs, if what that takes fits, and then sweeps over the nodes. -/
theorem phase_eq_ok : phase p fuel delta g = .ok g' ↔
    (∀ op ∈ fillOperations p delta g.state, Scalar.fits op = true) ∧
      iterate fuel (sweepStep p fuel delta)
        { g with state := saturateNegative p delta g.state } = .ok g' :=
  Scalar.inRange_bind_eq_ok

/-- A phase ends. -/
theorem phase_ends (hrows : p.rows = p.toNetwork.rows) (hdelta : 1 ≤ delta)
    (g : Progress n m α) : ∃ fuel, phase p fuel delta g ≠ .error .outOfFuel := by
  have hsweeps : ∃ fuel, iterate fuel (sweepStep p fuel delta)
      { g with state := saturateNegative p delta g.state } ≠ .error .outOfFuel := by
    refine exists_iterate_fueled_ne (P := fun _ => True)
      (measure fun g : Progress n m α => surplus g.state).wf ?_ ?_ ?_ trivial
    · exact fun f f' g hf => sweepStep_mono hf g
    · intro g _
      obtain ⟨f, hfold⟩ :=
        foldlM_drain_ends hrows hdelta (List.finRange n) { g with moved := false }
      exact ⟨f, bind_ne_outOfFuel hfold fun g' => nofun⟩
    · intro f g g' _ hstep
      rcases sweepStep_spec hrows hdelta hstep with ⟨g₁, heq, hless⟩ | ⟨g₁, heq, -⟩ <;> cases heq
      exact ⟨trivial, hless⟩
  obtain ⟨fuel, h⟩ := hsweeps
  exact ⟨fuel, bind_ne_outOfFuel Scalar.checked_ne_outOfFuel fun _ => h⟩

/-- A phase leaves no node to be drained. -/
theorem drained_of_phase (hrows : p.rows = p.toNetwork.rows) (hdelta : 1 ≤ delta)
    (hphase : phase p fuel delta g = .ok g') (s : Fin n) : Drained p delta g'.state s := by
  refine iterate_invariant (P := fun _ => True) (Q := fun g' => ∀ s, Drained p delta g'.state s)
    (fun _ _ _ _ => trivial) ?_ trivial (phase_eq_ok.mp hphase).2 s
  intro g g' _ hstep
  rcases sweepStep_spec hrows hdelta hstep with ⟨g₁, heq, -⟩ | ⟨g₁, heq, hdrained⟩ <;> cases heq
  exact hdrained

/-- What filling leaves and every augmentation for a positive `delta` keeps, a phase leaves. -/
theorem phase_invariant {P : State n m α → Prop} (hrows : p.rows = p.toNetwork.rows)
    (hkeep : 1 ≤ delta → ∀ st s way, P st → delta ≤ st.excess[s] →
      nearestDeficit p st s delta = some way → P (augment p st s way))
    (h : P (saturateNegative p delta g.state)) (hphase : phase p fuel delta g = .ok g') :
    P g'.state := by
  refine iterate_invariant (P := fun g => P g.state) (Q := fun g => P g.state) ?_ ?_ h
    (phase_eq_ok.mp hphase).2
  · intro g g' hg hstep
    obtain ⟨g₁, h₁, heq | heq⟩ := sweepStep_invariant hrows hkeep hg hstep <;> cases heq
    exact h₁
  · intro g g' hg hstep
    obtain ⟨g₁, h₁, heq | heq⟩ := sweepStep_invariant hrows hkeep hg hstep <;> cases heq
    exact h₁

/-- A phase leaves a sound state. -/
theorem sound_phase (hrows : p.rows = p.toNetwork.rows) (h : Sound p g.state)
    (hphase : phase p fuel delta g = .ok g') : Sound p g'.state :=
  phase_invariant (P := Sound p) hrows
    (fun hdelta _ _ _ hst hs hfound => hst.augment hdelta (usable_route hrows hfound) hs)
    (h.saturateNegative delta) hphase

section Overflow

variable {P : State n m α → Prop} (hrows : p.rows = p.toNetwork.rows)
  (hkeep : ∀ st s way, P st → delta ≤ st.excess[s] → nearestDeficit p st s delta = some way →
    P (augment p st s way))
  (hfits : ∀ (g : Progress n m α) s, P g.state → ∀ op ∈ drainOperations p delta s g,
    Scalar.fits op = true)

include hrows hkeep hfits

/-- Draining a node does not overflow if using a way from a state with the invariant `P` does
not. -/
theorem drain_ne_overflow (h : P g.state) : drain p fuel delta g s ≠ .error .overflow := by
  refine iterate_ne_overflow (P := fun g => P g.state) ?_ ?_ h
  · exact fun g hg => Scalar.checked_ne_overflow (hfits g s hg)
  · intro g₁ g₂ h₁ hstep
    obtain ⟨hs, way, hfound, -, heq, -⟩ := drainStep_next hrows (Scalar.checked_eq_ok.mp hstep).2
    rw [heq]
    exact hkeep _ _ way h₁ hs hfound

theorem sweepStep_ne_overflow (h : P g.state) :
    sweepStep p fuel delta g ≠ .error .overflow := by
  refine bind_ne_overflow (foldlM_ne_overflow (P := fun g => P g.state) ?_ ?_ _ h) fun _ _ => nofun
  · exact fun g s hg => drain_ne_overflow hrows hkeep hfits hg
  · exact fun g s g' hg hdrain => drain_invariant hrows (fun _ => hkeep) hg hdrain

/-- A phase does not overflow if what it takes fits in states with the invariant `P`, which every
way used keeps. -/
theorem phase_ne_overflow
    (hfill : ∀ op ∈ fillOperations p delta g.state, Scalar.fits op = true)
    (h : P (saturateNegative p delta g.state)) : phase p fuel delta g ≠ .error .overflow := by
  refine bind_ne_overflow (Scalar.checked_ne_overflow hfill) fun _ _ => ?_
  refine iterate_ne_overflow (P := fun g => P g.state) ?_ ?_ h
  · exact fun g hg => sweepStep_ne_overflow hrows hkeep hfits hg
  · intro g g' hg hstep
    obtain ⟨g₁, h₁, heq | heq⟩ := sweepStep_invariant hrows (fun _ => hkeep) hg hstep <;> cases heq
    exact h₁

end Overflow

theorem phase_mono (hfuel : fuel ≤ fuel') (g : Progress n m α) :
    Persists (phase p fuel delta g) (phase p fuel' delta g) :=
  Persists.rfl.bind fun _ => .iterate (sweepStep_mono hfuel) hfuel

end Phase

section Costs

variable [inst : ExactCosts] {p : Indexed n m Int} {g g' : Progress n m Int}

/-- A sound state whose wide residual arcs have no negative reduced costs. -/
structure InPhase (p : Indexed n m Int) (delta : Int) (st : State n m Int) : Prop
    extends Sound p st where
  wideOptimal : WideOptimal p st delta

/-- On integers, a phase does not overflow. -/
theorem phase_ne_overflow_exact (hrows : p.rows = p.toNetwork.rows) :
    phase p fuel delta g ≠ .error .overflow :=
  phase_ne_overflow (P := fun _ => True) hrows (fun _ _ _ _ _ _ => trivial)
    (fun _ _ _ op _ => fits_exact op) (fun op _ => fits_exact op) trivial

/-- On integers, a phase ends with a result. -/
theorem exists_phase (hrows : p.rows = p.toNetwork.rows) (hdelta : 1 ≤ delta)
    (g : Progress n m Int) : ∃ fuel g', phase p fuel delta g = .ok g' :=
  (phase_ends hrows hdelta g).imp fun _ h => exists_ok h (phase_ne_overflow_exact hrows)

/-- What a phase leaves. -/
theorem inPhase_of_phase (hrows : p.rows = p.toNetwork.rows) (hp : p.Prepared) (hdelta : 1 ≤ delta)
    (h : Sound p g.state) (hphase : phase p fuel delta g = .ok g') :
    InPhase p delta g'.state := by
  refine ⟨sound_phase hrows h hphase, ?_⟩
  refine phase_invariant (P := fun st => WideOptimal p st delta) hrows ?_
    (wideOptimal_saturateNegative hp hdelta h) hphase
  exact fun _ _ _ _ hopt _ hfound => hopt.augment (valid_route hrows hopt hfound)

end Costs

end NetworkFlow.CapacityScaling
