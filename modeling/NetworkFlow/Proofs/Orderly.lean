import NetworkFlow.Proofs.Actions
import NetworkFlow.Registry.Job

/-!
# What is reported on the way, and how it ends

A computation is orderly if it warns of nothing and comes to an end, with a value or a refusal
(`Logged.Orderly`). The engines, which are counted down and compute with words, may be interrupted;
what holds of them is the same apart from that, so interruptions are let through by a parameter.

An action is orderly on a state (`Action.Orderly`) if beyond that it leaves an invariant and returns
only values of a kind. There is one rule for each way in which actions are composed. In all of them
what follows a look is run on the same state.

## Main results

* `Logged.Orderly.bind`, `Action.Orderly.bind`: what is inherited from the parts.
* `Method.solve_orderly`, `Configuration.solve_orderly`: the engines, and the preparation of their
  problems, report nothing that is a warning.
* `RunJob.result_orderly`: nor does the run of a job.
-/

namespace NetworkFlow

namespace Logged

variable {α β : Type} {searching : Prop}

/-- The computation warns of nothing, and ends; only if it is searching, it may be interrupted. -/
structure Orderly (searching : Prop) (x : Logged α) : Prop where
  quiet : ∀ e ∈ x.events, e.level ≠ .warn
  ends : ∀ why, x.outcome = .error (.interrupted why) → searching

theorem orderly_pure (a : α) : (pure a : Logged α).Orderly searching :=
  ⟨by simp, fun _ h => by cases h⟩

theorem orderly_report {e : Event} (h : e.level = .debug ∨ e.level = .trace) :
    (report e).Orderly searching := by
  refine ⟨?_, fun _ h => by cases h⟩
  intro e' he'
  rw [show e' = e from List.mem_singleton.mp he']
  rcases h with h | h <;> rw [h] <;> decide

theorem orderly_refuse (cause : Error) : (refuse cause : Logged α).Orderly searching :=
  ⟨fun _ he => (List.not_mem_nil he).elim, fun _ h => by cases h⟩

theorem orderly_ofExcept (x : Except Error α) : (ofExcept x).Orderly searching := by
  cases x with
  | error cause => exact orderly_refuse cause
  | ok a => exact orderly_pure a

theorem orderly_ofRun (x : Except Interruption α) : (ofRun x).Orderly True := by
  refine ⟨?_, fun _ _ => trivial⟩
  cases x <;> exact fun _ he => (List.not_mem_nil he).elim

theorem Orderly.bind {x : Logged α} {f : α → Logged β} (hx : x.Orderly searching)
    (hf : ∀ a, (f a).Orderly searching) : (x >>= f).Orderly searching := by
  obtain ⟨events, fault | a⟩ := x
  · refine ⟨hx.quiet, fun why h => hx.ends why ?_⟩
    cases h
    rfl
  · refine ⟨?_, (hf a).ends⟩
    intro e he
    rcases List.mem_append.mp (show e ∈ events ++ (f a).events from he) with he | he
    · exact hx.quiet e he
    · exact (hf a).quiet e he

theorem orderly_foldlM {σ ι : Type} {step : σ → ι → Logged σ}
    (h : ∀ s x, (step s x).Orderly searching) (xs : List ι) (s : σ) :
    (xs.foldlM step s).Orderly searching := by
  induction xs generalizing s with
  | nil => exact orderly_pure s
  | cons x xs ih =>
      rw [List.foldlM_cons]
      exact (h s x).bind ih

end Logged

open Logged

/-! ## Engines -/

section Engines

variable {n m : Nat} {α : Type} [Scalar α]

theorem feasibleFlow_orderly {α : Type} (fuel : Nat) (p : Problem n m α) :
    (feasibleFlow fuel p).Orderly True := by
  refine (orderly_ofExcept _).bind fun demand => ?_
  refine (orderly_ofRun _).bind fun flow => ?_
  refine (orderly_ofExcept _).bind fun flow => ?_
  refine (orderly_report (.inr rfl)).bind fun _ => ?_
  split
  · exact orderly_pure _
  · exact orderly_pure _

omit [Scalar α] in
theorem NetworkSimplex.reportAdopted_orderly (s : NetworkSimplex.Progress n m α) :
    (NetworkSimplex.reportAdopted s).Orderly True := by
  unfold NetworkSimplex.reportAdopted
  split
  · exact orderly_report (.inl rfl)
  · exact orderly_pure _

theorem NetworkSimplex.solve_orderly (fuel : Nat) (p : Problem n m α) (rule : PivotRule) :
    (NetworkSimplex.solve fuel p rule).Orderly True := by
  refine (orderly_ofRun _).bind fun _ => ?_
  refine (orderly_ofExcept _).bind fun dear => ?_
  refine (orderly_ofRun _).bind fun _ => ?_
  refine (orderly_ofRun _).bind fun finish => ?_
  cases finish with
  | unbounded s => exact (reportAdopted_orderly s).bind fun _ => orderly_pure _
  | optimal s =>
      refine (reportAdopted_orderly s).bind fun _ => ?_
      refine (orderly_report (.inr rfl)).bind fun _ => ?_
      split
      · exact orderly_pure _
      · exact orderly_pure _

theorem CostScaling.scaledFlow_orderly (fuel : Nat) (p : Problem n m α) (alpha : Nat)
    (flow : Table Int m) : (CostScaling.scaledFlow fuel p alpha flow).Orderly True := by
  refine (orderly_ofExcept _).bind fun scaledCost => ?_
  refine (orderly_ofRun _).bind fun _ => ?_
  dsimp only
  split
  · refine (orderly_ofRun _).bind fun last => ?_
    cases last with
    | none => exact orderly_pure _
    | some last => exact (orderly_report (.inr rfl)).bind fun _ => orderly_pure _
  · exact orderly_pure _

theorem CostScaling.solve_orderly (fuel : Nat) (p : Problem n m α) (alpha : Nat) :
    (CostScaling.solve fuel p alpha).Orderly True := by
  refine (feasibleFlow_orderly fuel p).bind fun flow => ?_
  cases flow with
  | none => exact orderly_pure _
  | some flow =>
      refine (scaledFlow_orderly fuel p alpha flow).bind fun flow => ?_
      cases flow with
      | none => exact orderly_pure _
      | some flow =>
          refine (orderly_ofRun _).bind fun last => ?_
          dsimp only
          split
          · exact (orderly_report (.inr rfl)).bind fun _ => orderly_pure _
          · exact orderly_pure _

theorem CapacityScaling.solve_orderly (fuel : Nat) (p : Problem n m α) (factor : Nat) :
    (CapacityScaling.solve fuel p factor).Orderly True := by
  refine (orderly_ofRun _).bind fun last => ?_
  refine (orderly_report (.inr rfl)).bind fun _ => ?_
  split
  · exact orderly_pure _
  · exact orderly_pure _

theorem Method.solve_orderly (method : Method) (fuel : Nat) (p : Problem n m α) :
    (method.solve fuel p).Orderly True := by
  cases method with
  | networkSimplex rule => exact NetworkSimplex.solve_orderly fuel p rule
  | costScaling alpha => exact CostScaling.solve_orderly fuel p alpha
  | capacityScaling factor => exact CapacityScaling.solve_orderly fuel p factor

end Engines

namespace Configuration

variable {w : Width} {α : Type} [Cost α]

theorem prepare_orderly (c : Configuration w α) : c.prepare.Orderly True := by
  refine (orderly_ofExcept _).bind fun supply => ?_
  split
  · exact (orderly_report (.inl rfl)).bind fun _ => orderly_pure _
  · exact orderly_refuse _
  · refine (orderly_foldlM (fun _ _ => orderly_ofExcept _) _ _).bind fun total => ?_
    split
    · exact (orderly_report (.inl rfl)).bind fun _ => orderly_pure _
    · refine (orderly_ofExcept _).bind fun madeUp => ?_
      dsimp only
      split
      · exact (orderly_report (.inl rfl)).bind fun _ => orderly_refuse _
      · exact (orderly_ofRun _).bind fun _ => orderly_pure _

theorem solve_orderly (c : Configuration w α) (fuel : Nat) (method : Method) :
    (c.solve fuel method).Orderly True := by
  refine c.prepare_orderly.bind fun prepared => ?_
  cases prepared with
  | none => exact orderly_pure _
  | some p => exact (method.solve_orderly fuel p).bind fun outcome => orderly_ofRun _

end Configuration

/-! ## Actions -/

namespace Action

variable {σ α β : Type} {I : σ → Prop} {Q : α → Prop} {R : β → Prop} {searching : Prop} {s : σ}

/-- Run on a state, the action leaves one with an invariant, is orderly, and returns nothing but values
with a property. -/
structure Orderly (I : σ → Prop) (Q : α → Prop) (searching : Prop) (x : Action σ α) (s : σ) :
    Prop where
  keeps : I (x.run s).2
  orderly : (x.run s).1.Orderly searching
  returns : ∀ a, (x.run s).1.outcome = .ok a → Q a

theorem orderly_ofLogged {x : Logged α} (hs : I s) (hx : x.Orderly searching)
    (hQ : ∀ a, x.outcome = .ok a → Q a) : Orderly I Q searching (ofLogged x) s :=
  ⟨hs, hx, hQ⟩

theorem orderly_pure {a : α} (hs : I s) (ha : Q a) : Orderly I Q searching (pure a) s :=
  ⟨hs, Logged.orderly_pure a, fun b hb => by cases hb; exact ha⟩

theorem orderly_refuse (hs : I s) (cause : Error) :
    Orderly I Q searching (refuse cause : Action σ α) s :=
  ⟨hs, Logged.orderly_refuse cause, fun a ha => by cases ha⟩

/-- Nothing follows a refusal. -/
theorem orderly_refused (hs : I s) {cause : Error} {f : α → Action σ β} :
    Orderly I R searching (refuse cause >>= f) s :=
  ⟨hs, Logged.orderly_refuse cause, fun a ha => by cases ha⟩

theorem orderly_report {e : Event} (hs : I s) (he : e.level = .debug ∨ e.level = .trace) :
    Orderly I (fun _ => True) searching (report e : Action σ Unit) s :=
  ⟨hs, Logged.orderly_report he, fun _ _ => trivial⟩

theorem orderly_modify {f : σ → σ} (h : I (f s)) :
    Orderly I (fun _ => True) searching (modify f : Action σ PUnit) s :=
  ⟨h, Logged.orderly_pure _, fun _ _ => trivial⟩

theorem orderly_set {s' : σ} (h : I s') :
    Orderly I (fun _ => True) searching (set s' : Action σ PUnit) s :=
  ⟨h, Logged.orderly_pure _, fun _ _ => trivial⟩

theorem Orderly.weaken {searching' : Prop} {x : Action σ α} (h : Orderly I Q searching x s)
    (hsearching : searching → searching') : Orderly I Q searching' x s :=
  ⟨h.keeps, ⟨h.orderly.quiet, fun why hend => hsearching (h.orderly.ends why hend)⟩, h.returns⟩

/-- What follows a look at the state. -/
theorem Orderly.of_get {f : σ → Action σ β} (h : Orderly I R searching (f s) s) :
    Orderly I R searching (get >>= f) s := ⟨h.keeps, h.orderly, h.returns⟩

/-- What follows a look that may fail is run on the same state. -/
theorem Orderly.look {x : Except Error α} {f : α → Action σ β} (hs : I s)
    (h : ∀ a, x = .ok a → Orderly I R searching (f a) s) :
    Orderly I R searching (liftM x >>= f) s := by
  cases x with
  | error cause => exact orderly_refused hs
  | ok a => exact h a rfl

theorem Orderly.bind {x : Action σ α} {f : α → Action σ β} (hx : Orderly I Q searching x s)
    (hf : ∀ a s', I s' → Q a → Orderly I R searching (f a) s') :
    Orderly I R searching (x >>= f) s := by
  obtain ⟨hkeeps, horderly, hreturns⟩ := hx
  have hrun := run_bind x f s
  generalize x.run s = result at hkeeps horderly hreturns hrun
  obtain ⟨⟨events, fault | a⟩, s'⟩ := result
  · refine ⟨?_, ?_, ?_⟩ <;> rw [hrun]
    · exact hkeeps
    · refine ⟨horderly.quiet, fun why h => horderly.ends why ?_⟩
      cases h
      rfl
    · intro b hb
      cases hb
  · obtain ⟨hkeeps', horderly', hreturns'⟩ := hf a s' hkeeps (hreturns a rfl)
    refine ⟨?_, ?_, ?_⟩ <;> rw [hrun]
    · exact hkeeps'
    · refine ⟨fun e he => ?_, horderly'.ends⟩
      rcases List.mem_append.mp he with he | he
      · exact horderly.quiet e he
      · exact horderly'.quiet e he
    · exact hreturns'

/-- What follows a computation that needs no state is run on the same state. -/
theorem Orderly.logged {x : Logged α} {f : α → Action σ β} (hs : I s) (hx : x.Orderly searching)
    (h : ∀ a, x.outcome = .ok a → Orderly I R searching (f a) s) :
    Orderly I R searching (liftM x >>= f) s := by
  obtain ⟨events, fault | a⟩ := x
  · exact ⟨hs, ⟨hx.quiet, fun why h => hx.ends why (by cases h; rfl)⟩, fun a ha => by cases ha⟩
  · obtain ⟨hkeeps, horderly, hreturns⟩ := h a rfl
    refine ⟨hkeeps, ⟨fun e he => ?_, horderly.ends⟩, hreturns⟩
    rcases List.mem_append.mp (show e ∈ events ++ ((f a).run s).1.events from he) with he | he
    · exact hx.quiet e he
    · exact horderly.quiet e he

end Action

/-! ## Runs -/

section Runs

open NetworkFlow.Action

variable {w : Width} {α : Type}

/-- The action, a part of a run, warns of nothing. -/
def Quiet {σ β : Type} (x : Action σ β) : Prop :=
  ∀ s, Action.Orderly (fun _ => True) (fun _ => True) True x s

theorem Quiet.bind {σ β γ : Type} {x : Action σ β} {f : β → Action σ γ} (hx : Quiet x)
    (hf : ∀ b, Quiet (f b)) : Quiet (x >>= f) := fun s =>
  (hx s).bind fun b s' _ _ => hf b s'

theorem Solver.quiet_reconfigure (change : Configuration w α → Except Error (Configuration w α)) :
    Quiet (Solver.reconfigure change) := fun _ =>
  .of_get (.look trivial fun _ _ => orderly_set trivial)

theorem Solver.quiet_run [Cost α] (fuel : Nat) :
    Quiet (Solver.run fuel : Action (Solver w α) Verdict) := by
  refine Quiet.bind (fun _ => orderly_modify trivial) fun _ => ?_
  intro s
  refine .of_get (.logged trivial (s.config.solve_orderly fuel s.method) fun solution _ => ?_)
  refine (orderly_report trivial (.inl rfl)).bind fun _ s' _ _ => ?_
  exact (orderly_set trivial).bind fun _ s' _ _ => orderly_pure trivial trivial

theorem RunJob.quiet_useMap {σ β : Type} {kind : KeyKind} (map : Option (AnyMap kind))
    (read : AnyMap kind → Except Error β) {use : β → Action σ Unit} (huse : ∀ b, Quiet (use b)) :
    Quiet (RunJob.useMap map read use) := by
  intro s
  cases map with
  | none => exact orderly_pure trivial trivial
  | some map => exact .look trivial fun b _ => huse b s

theorem RunJob.result_orderly (job : RunJob) (fuel : Nat) : (job.result fuel).Orderly True := by
  have hsolve : ∀ w, (job.solve fuel w).Orderly True := by
    intro w
    refine (?_ : Quiet (job.runTyped fuel w job.costType)) _ |>.orderly
    refine (quiet_useMap _ _ fun _ => Solver.quiet_reconfigure _).bind fun _ => ?_
    refine (quiet_useMap _ _ fun _ => Solver.quiet_reconfigure _).bind fun _ => ?_
    refine (quiet_useMap _ _ fun _ => Solver.quiet_reconfigure _).bind fun _ => ?_
    refine (quiet_useMap _ _ fun _ => Solver.quiet_reconfigure _).bind fun _ => ?_
    refine (Solver.quiet_run fuel).bind fun verdict => ?_
    exact fun _ => .of_get (orderly_pure trivial trivial)
  unfold RunJob.result
  split
  · exact hsolve .bits32
  · exact hsolve .bits64
  · exact orderly_refuse _

end Runs

end NetworkFlow
