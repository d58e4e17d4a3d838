import NetworkFlow.Event
import NetworkFlow.Loop

/-!
# Computations that report events and may fail

`Logged α` is a computation that reports events and then either returns a value
or ends with a `Fault`. The events reported before a fault are kept: a caller
that is refused still sees what was logged on the way.

`Action σ α` is the same over a state. The state too survives a fault, so "a
refused call changes nothing" is something to prove and not part of the type.

A fault is a refusal, which is an answer, or an interruption, which is not. The
searches of the engines are counted down from a number their caller chooses, and a
run that reaches the end of it says nothing about the problem; neither does a run
that a plain sum or product has stopped because it left the range of its type.
-/

namespace NetworkFlow

/-- How a computation ends without a value. -/
inductive Fault where
  /-- The call is refused. -/
  | refused (cause : Error)
  /-- The call ends before an answer is found. -/
  | interrupted (why : Interruption)
  deriving DecidableEq, Repr

/-- The fuel is used up before an answer is found. -/
@[match_pattern] abbrev Fault.outOfFuel : Fault := interrupted .outOfFuel

/-- A plain operation leaves the range of its type before an answer is found. -/
@[match_pattern] abbrev Fault.overflow : Fault := interrupted .overflow

/-- The events a computation reported and how it ended. -/
structure Logged (α : Type) where
  events : List Event
  outcome : Except Fault α

namespace Logged

variable {α β : Type}

/-- A computation that only returns a value. -/
def ofValue (a : α) : Logged α := ⟨[], .ok a⟩

/-- The first computation, then, if it returned a value, the next one on it. -/
def andThen (x : Logged α) (f : α → Logged β) : Logged β :=
  match x.outcome with
  | .ok a =>
      let y := f a
      ⟨x.events ++ y.events, y.outcome⟩
  | .error fault => ⟨x.events, .error fault⟩

instance : Monad Logged where
  pure := ofValue
  bind := andThen

/-- Reports one event. -/
def report (e : Event) : Logged Unit := ⟨[e], .ok ()⟩

/-- Ends with a refusal. -/
def refuse (cause : Error) : Logged α := ⟨[], .error (.refused cause)⟩

/-- The computation that a refusal or a value stands for. -/
def ofExcept : Except Error α → Logged α
  | .ok a => ofValue a
  | .error cause => refuse cause

/-- The computation that a run stands for. -/
def ofRun : Except Interruption α → Logged α
  | .ok a => ofValue a
  | .error why => ⟨[], .error (.interrupted why)⟩

instance : MonadLift (Except Error) Logged := ⟨ofExcept⟩

instance : MonadLift (Except Interruption) Logged := ⟨ofRun⟩

@[simp] theorem pure_eq (a : α) : (pure a : Logged α) = ⟨[], .ok a⟩ := rfl

@[simp] theorem ok_bind (ev : List Event) (a : α) (f : α → Logged β) :
    (⟨ev, .ok a⟩ : Logged α) >>= f = ⟨ev ++ (f a).events, (f a).outcome⟩ := rfl

@[simp] theorem error_bind (ev : List Event) (fault : Fault) (f : α → Logged β) :
    (⟨ev, .error fault⟩ : Logged α) >>= f = ⟨ev, .error fault⟩ := rfl

theorem bind_assoc (x : Logged α) (f : α → Logged β) {γ : Type} (g : β → Logged γ) :
    x >>= f >>= g = x >>= fun a => f a >>= g := by
  obtain ⟨ev, _ | a⟩ := x
  · rfl
  · simp only [ok_bind]
    show andThen ⟨_, (f a).outcome⟩ g =
      ⟨_ ++ (andThen (f a) g).events, (andThen (f a) g).outcome⟩
    obtain ⟨ev', _ | b⟩ := f a
    · rfl
    · simp [andThen]

theorem bind_pure (x : Logged α) : x >>= pure = x := by
  obtain ⟨ev, _ | a⟩ := x
  · rfl
  · simp

theorem pure_bind (a : α) (f : α → Logged β) : pure a >>= f = f a := by
  simp

instance : LawfulMonad Logged :=
  LawfulMonad.mk' Logged bind_pure pure_bind fun x f g => bind_assoc x f g

theorem outcome_bind (x : Logged α) (f : α → Logged β) :
    (x >>= f).outcome = x.outcome.bind fun a => (f a).outcome := by
  obtain ⟨ev, _ | a⟩ := x <;> rfl

/-- A sequence of computations returns a value if each of them does. -/
theorem outcome_bind_eq_ok {x : Logged α} {f : α → Logged β} {b : β} :
    (x >>= f).outcome = .ok b ↔ ∃ a, x.outcome = .ok a ∧ (f a).outcome = .ok b := by
  rw [outcome_bind]
  cases x.outcome with
  | error fault => simp [Except.bind]
  | ok a => simp [Except.bind]

/-- A sequence of computations ends without a value as the first of them does that has none. -/
theorem outcome_bind_eq_error {x : Logged α} {f : α → Logged β} {fault : Fault} :
    (x >>= f).outcome = .error fault ↔
      x.outcome = .error fault ∨ ∃ a, x.outcome = .ok a ∧ (f a).outcome = .error fault := by
  rw [outcome_bind]
  cases x.outcome with
  | error fault => simp [Except.bind]
  | ok a => simp [Except.bind]

@[simp] theorem outcome_pure (a : α) : (pure a : Logged α).outcome = .ok a := rfl

@[simp] theorem outcome_report (e : Event) : (report e).outcome = .ok () := rfl

@[simp] theorem outcome_refuse (cause : Error) :
    (refuse cause : Logged α).outcome = .error (.refused cause) := rfl

@[simp] theorem outcome_ofExcept_eq_ok {x : Except Error α} {a : α} :
    (ofExcept x).outcome = .ok a ↔ x = .ok a := by
  cases x <;> simp [ofExcept, ofValue, refuse]

theorem outcome_ofExcept_eq_error {x : Except Error α} {fault : Fault} :
    (ofExcept x).outcome = .error fault ↔ ∃ cause, x = .error cause ∧ fault = .refused cause := by
  cases x with
  | error cause => simp [ofExcept, refuse, eq_comm]
  | ok a => simp [ofExcept, ofValue]

@[simp] theorem outcome_ofRun_eq_ok {x : Except Interruption α} {a : α} :
    (ofRun x).outcome = .ok a ↔ x = .ok a := by
  cases x <;> simp [ofRun, ofValue]

theorem outcome_ofRun_eq_error {x : Except Interruption α} {fault : Fault} :
    (ofRun x).outcome = .error fault ↔ ∃ why, x = .error why ∧ fault = .interrupted why := by
  cases x with
  | error why => simp [ofRun, eq_comm]
  | ok a => simp [ofRun, ofValue]

end Logged

/-- A computation over a state that reports events and may fail. -/
def Action (σ α : Type) : Type := σ → Logged α × σ

namespace Action

variable {σ α β : Type}

/-- Runs an action on a state. -/
def run (x : Action σ α) (s : σ) : Logged α × σ := x s

/-- The action that only returns a value. -/
def ofValue (a : α) : Action σ α := fun s => (.ofValue a, s)

/-- The first action, then, if it returned a value, the next one on it. A fault
keeps the state it was reached in. -/
def andThen (x : Action σ α) (f : α → Action σ β) : Action σ β := fun s =>
  match x s with
  | (⟨events, .ok a⟩, s') =>
      let (y, s'') := f a s'
      (⟨events ++ y.events, y.outcome⟩, s'')
  | (⟨events, .error fault⟩, s') => (⟨events, .error fault⟩, s')

instance : Monad (Action σ) where
  pure := ofValue
  bind := andThen

/-- The action of a computation that needs no state. -/
def ofLogged (x : Logged α) : Action σ α := fun s => (x, s)

instance : MonadLift Logged (Action σ) := ⟨ofLogged⟩

instance : MonadLift (Except Error) (Action σ) := ⟨fun x => ofLogged (.ofExcept x)⟩

instance : MonadStateOf σ (Action σ) where
  get := fun s => (.ofValue s, s)
  set s := fun _ => (.ofValue (), s)
  modifyGet f := fun s => (.ofValue (f s).1, (f s).2)

/-- Reports one event. -/
def report (e : Event) : Action σ Unit := ofLogged (.report e)

/-- Ends with a refusal. -/
def refuse (cause : Error) : Action σ α := ofLogged (.refuse cause)

/-- Runs an action and goes on from its value or from the cause of its refusal. Only
an interruption is passed on. -/
def conclude (x : Action σ α) (f : Except Error α → Action σ β) : Action σ β := fun s =>
  match x s with
  | (⟨events, .ok a⟩, s') =>
      let (y, s'') := f (.ok a) s'
      (⟨events ++ y.events, y.outcome⟩, s'')
  | (⟨events, .error (.refused cause)⟩, s') =>
      let (y, s'') := f (.error cause) s'
      (⟨events ++ y.events, y.outcome⟩, s'')
  | (⟨events, .error (.interrupted why)⟩, s') => (⟨events, .error (.interrupted why)⟩, s')

@[simp] theorem run_pure (a : α) (s : σ) : (pure a : Action σ α).run s = (⟨[], .ok a⟩, s) := rfl

theorem run_bind (x : Action σ α) (f : α → Action σ β) (s : σ) :
    (x >>= f).run s = match x.run s with
      | (⟨events, .ok a⟩, s') =>
          (⟨events ++ ((f a).run s').1.events, ((f a).run s').1.outcome⟩, ((f a).run s').2)
      | (⟨events, .error fault⟩, s') => (⟨events, .error fault⟩, s') := rfl

@[simp] theorem run_get (s : σ) : (get : Action σ σ).run s = (⟨[], .ok s⟩, s) := rfl

@[simp] theorem run_set (s s' : σ) : (set s' : Action σ PUnit).run s = (⟨[], .ok ()⟩, s') := rfl

@[simp] theorem run_ofLogged (x : Logged α) (s : σ) :
    (ofLogged x : Action σ α).run s = (x, s) := rfl

end Action

end NetworkFlow
