import NetworkFlow.Proofs.Registry.Results

/-!
# Runs of a solver that overlap

A run of a solver copies what it needs and brings its result back later; other calls may come in
between, and among them other runs of the same solver. A `Session` is a registry with the runs begun
so far: each of them has a ticket, under which it is completed, unless its copy failed. What a run
finds out depends on its copy alone, so it does not matter when between the two calls it works.

A result is kept unless the solver was reconfigured since the copy was made. That a later run of the
solver was begun meanwhile is not noticed. So a flow is that of the run begun last, as long as no run
is completed that another one has overtaken (`InOrder`).

## Main results

* `perform_run`: a run in one call is a run in two calls without any other call in between.
* `flow_of_latest`: what a flow is read from.
* `overtaken_result_returns`: a run that is overtaken brings its result back all the same.
-/

namespace NetworkFlow

namespace Registry

/-- A run that was begun, with the copy that it works on, if that did not fail. -/
structure Attempt where
  solver : Handle
  job : Option RunJob

/-- A registry and the runs that were begun, in order. -/
structure Session where
  registry : Registry := .empty
  attempts : List Attempt := []

namespace Session

/-- The run of a solver that was begun last. -/
def latest (s : Session) (solver : Handle) : Option Attempt :=
  s.attempts.reverse.find? (·.solver = solver)

/-- The solver was given a map since the copy was made, or is not alive. -/
def Reconfigured (s : Session) (job : RunJob) : Prop :=
  ∀ record, s.registry.solver job.solver = .ok record → record.revision ≠ job.revision

/-- A call of the registry that may change it. -/
inductive Call where
  | edit (edit : Edit)
  | snapshot (solver : Handle)
  | complete (ticket fuel : Nat)
  | run (solver : Handle) (fuel : Nat)

/-- The copy that a run of a solver begins with. -/
def attempt (r : Registry) (solver : Handle) : Attempt where
  solver := solver
  job := ((Registry.snapshot solver).run r).1.outcome.toOption

/-- Begins a run. -/
def begin (s : Session) (solver : Handle) : Session where
  registry := ((Registry.snapshot solver).run s.registry).2
  attempts := s.attempts ++ [attempt s.registry solver]

/-- Lets a run work on its copy and completes it. -/
def bringBack (job : RunJob) (fuel : Nat) : Action Registry Verdict := do
  let done ← job.execute fuel
  Registry.complete done

/-- Lets a run that was begun work on its copy and completes it. -/
def finish (s : Session) (ticket fuel : Nat) : Session :=
  match s.attempts[ticket]? with
  | some ⟨_, some job⟩ =>
      { s with registry := ((bringBack job fuel).run s.registry).2 }
  | _ => s

/-- Makes a call. -/
def perform (s : Session) : Call → Session
  | .edit edit => { s with registry := edit.apply s.registry }
  | .snapshot solver => s.begin solver
  | .complete ticket fuel => s.finish ticket fuel
  | .run solver fuel =>
      { registry := ((Registry.run fuel solver).run s.registry).2
        attempts := (s.begin solver).attempts }

/-- Makes calls one after the other. -/
def performAll (s : Session) (calls : List Call) : Session := calls.foldl perform s

/-- The call does not complete a run that was overtaken: if another run of the solver has been begun
since, the solver has been reconfigured too. -/
def Timely (s : Session) : Call → Prop
  | .complete ticket _ => ∀ solver job, s.attempts[ticket]? = some ⟨solver, some job⟩ →
      s.latest solver = some ⟨solver, some job⟩ ∨ s.Reconfigured job
  | _ => True

/-- No run is completed that was overtaken. -/
def InOrder : Session → List Call → Prop
  | _, [] => True
  | s, call :: calls => s.Timely call ∧ (s.perform call).InOrder calls

/-- Each copy is one of the solver it was made for, and every result that is kept is that of the run
of its solver that was begun last. -/
structure Current (s : Session) : Prop where
  own : ∀ a ∈ s.attempts, ∀ job, a.job = some job → job.solver = a.solver
  kept : ∀ solver result, s.registry.stored solver = some result → ∃ job fuel,
    s.latest solver = some ⟨solver, some job⟩ ∧ (job.result fuel).outcome = .ok result

variable {s : Session} {solver h : Handle} {job : RunJob} {fuel : Nat}

theorem latest_begin (s : Session) (solver h : Handle) :
    (s.begin solver).latest h =
      if solver = h then some (attempt s.registry solver) else s.latest h := by
  unfold latest begin
  by_cases heq : solver = h <;> simp [heq, attempt]

theorem getElem?_begin (s : Session) (solver : Handle) :
    (s.begin solver).attempts[s.attempts.length]? = some (attempt s.registry solver) := by
  simp [begin]

/-- A copy belongs to the solver it was made for. -/
theorem solver_of_attempt {r : Registry} (hjob : (attempt r solver).job = some job) :
    job.solver = solver := by
  unfold attempt at hjob
  cases hcopied : ((Registry.snapshot solver).run r).1.outcome with
  | error fault =>
      rw [hcopied] at hjob
      cases hjob
  | ok copy =>
      rw [hcopied] at hjob
      cases hjob
      exact solver_of_snapshot hcopied

/-- A run in one call is a run in two calls without any other call in between. -/
theorem perform_run (s : Session) (solver : Handle) (fuel : Nat) :
    s.perform (.run solver fuel) = (s.begin solver).finish s.attempts.length fuel := by
  have hrun : (Registry.run fuel solver).run s.registry =
      ((Registry.snapshot solver >>= fun job => bringBack job fuel) : Action Registry Verdict).run
        s.registry := rfl
  rw [Action.run_bind] at hrun
  simp only [perform, finish, getElem?_begin, hrun]
  unfold begin attempt
  generalize (Registry.snapshot solver).run s.registry = copied
  obtain ⟨⟨events, fault | job⟩, registry⟩ := copied <;> rfl

theorem current_empty : Current {} := by
  refine ⟨fun a ha => by simp at ha, fun solver result hstored => ?_⟩
  exact absurd hstored (by simp [stored, empty, HandleTable.empty, HandleTable.get?])

/-- Edits bring in no results. -/
theorem Current.edit (hs : s.Current) (edit : Edit) : (s.perform (.edit edit)).Current :=
  ⟨hs.own, fun solver result hstored =>
    hs.kept solver result (edit.keepsOnly s.registry solver result hstored)⟩

/-- A run that is begun drops the result of its solver. -/
theorem Current.begin (hs : s.Current) (solver : Handle) : (s.begin solver).Current := by
  refine ⟨fun a ha job hjob => ?_, fun h result hstored => ?_⟩
  · rcases List.mem_append.mp ha with ha | ha
    · exact hs.own a ha job hjob
    · rw [List.mem_singleton.mp ha] at hjob ⊢
      exact solver_of_attempt hjob
  · replace hstored := (stored_snapshot s.registry solver h).symm.trans hstored
    split_ifs at hstored with heq
    rw [latest_begin, if_neg fun hsolver => heq hsolver.symm]
    exact hs.kept h result hstored

/-- A run that was not overtaken brings in the result of the run begun last. -/
theorem Current.finish (hs : s.Current) {ticket : Nat} (htimely : s.Timely (.complete ticket fuel)) :
    (s.finish ticket fuel).Current := by
  unfold Session.finish
  split
  · rename_i solver job hattempt
    refine ⟨hs.own, fun h result hstored => ?_⟩
    have hown := hs.own _ (List.mem_of_getElem? hattempt) job rfl
    rcases stored_complete hstored with hstored | ⟨rfl, hresult, record, hrecord, hrevision⟩
    · exact hs.kept h result hstored
    · rcases htimely solver job hattempt with hlatest | hreconfigured
      · refine ⟨job, fuel, ?_, hresult⟩
        show s.latest job.solver = some ⟨job.solver, some job⟩
        rw [hown]
        exact hlatest
      · exact absurd hrevision (hreconfigured record hrecord)
  · exact hs

/-- A run is not overtaken while it is the one begun last. -/
theorem timely_begin (s : Session) (solver : Handle) (fuel : Nat) :
    (s.begin solver).Timely (.complete s.attempts.length fuel) := by
  intro h job hattempt
  rw [getElem?_begin] at hattempt
  obtain rfl : solver = h := congrArg Attempt.solver (Option.some.inj hattempt)
  rw [latest_begin, if_pos rfl, hattempt]
  exact .inl rfl

/-- A timely call keeps the results current. -/
theorem Current.perform (hs : s.Current) {call : Call} (htimely : s.Timely call) :
    (s.perform call).Current := by
  cases call with
  | edit edit => exact hs.edit edit
  | snapshot solver => exact hs.begin solver
  | complete ticket fuel => exact hs.finish htimely
  | run solver fuel =>
      rw [perform_run]
      exact (hs.begin solver).finish (timely_begin s solver fuel)

theorem performAll_append (s : Session) (calls calls' : List Call) :
    s.performAll (calls ++ calls') = (s.performAll calls).performAll calls' :=
  List.foldl_append

theorem InOrder.append {calls calls' : List Call} (horder : s.InOrder calls)
    (horder' : (s.performAll calls).InOrder calls') : s.InOrder (calls ++ calls') := by
  induction calls generalizing s with
  | nil => exact horder'
  | cons call calls ih => exact ⟨horder.1, ih horder.2 horder'⟩

/-- Only completing a run can be out of order. -/
theorem inOrder_of_forall {calls : List Call}
    (h : ∀ call ∈ calls, ∀ ticket fuel, call ≠ .complete ticket fuel) : s.InOrder calls := by
  induction calls generalizing s with
  | nil => trivial
  | cons call calls ih =>
      refine ⟨?_, ih fun next hnext => h next (List.mem_cons_of_mem _ hnext)⟩
      cases call with
      | complete ticket fuel => exact absurd rfl (h _ (by simp) ticket fuel)
      | _ => trivial

theorem Current.performAll (hs : s.Current) {calls : List Call} (horder : s.InOrder calls) :
    (s.performAll calls).Current := by
  induction calls generalizing s with
  | nil => exact hs
  | cons call calls ih => exact ih (hs.perform horder.1) horder.2

/-- Whatever calls are made, with whatever runs of whatever solvers in progress at a time, a flow is
that of the run of its solver that was begun last, as long as no run is completed that was overtaken
by another one. So if the run begun last failed, there is no flow. -/
theorem flow_of_latest (calls : List Call) (horder : InOrder {} calls) (solver : Handle)
    (key : KeyRef) (x : Int) (hflow : (performAll {} calls).registry.flow solver key = .ok x) :
    ∃ job fuel result, (performAll {} calls).latest solver = some ⟨solver, some job⟩ ∧
      (job.result fuel).outcome = .ok result ∧ result.verdict = .optimal ∧
      ∃ arc : Nat, result.flows[arc]? = some x := by
  obtain ⟨result, hstored, hverdict, harc⟩ := stored_of_flow hflow
  obtain ⟨job, fuel, hlatest, hresult⟩ := (current_empty.performAll horder).kept solver result hstored
  exact ⟨job, fuel, result, hlatest, hresult, hverdict, harc⟩

section Overlap

/-- A graph of two nodes and an arc. -/
def graph : Handle := ⟨0, 1⟩

/-- The list that the graph is built from. -/
def pairs : Handle := ⟨1, 1⟩

/-- A map over the nodes of the graph. -/
def supplies : Handle := ⟨2, 1⟩

/-- A solver of the graph. -/
def scaling : Handle := ⟨3, 1⟩

/-- Asks for an amount that leaves the first node and enters the second one. -/
def send (amount : Int) : List Call :=
  [.edit (.mapSet .node .long supplies (.index 0) (Word.clamp amount : Word .bits64)),
    .edit (.mapSet .node .long supplies (.index 1) (Word.clamp (-amount) : Word .bits64))]

/-- Two runs of a solver are begun: one that is asked for one unit, then one that is asked for two. -/
def overlap : List Call :=
  [.edit .newStaticDigraph, .edit .newPairList, .edit (.pushPair pairs 0 1),
    .edit (.buildStatic graph 2 pairs), .edit (.newMap .node graph .long),
    .edit (.newSolver graph .capacityScaling .long .long),
    .edit (.attach scaling .supply supplies)] ++
  send 1 ++ [.snapshot scaling] ++ send 2 ++ [.snapshot scaling]

/-- A run whose copy failed has none. -/
theorem eq_failed {found : Option Attempt} (hsolver : found.map (·.solver) = some solver)
    (hjob : found.any (·.job.isNone)) : found = some ⟨solver, none⟩ := by
  obtain ⟨⟨h, job⟩, rfl, rfl⟩ := Option.map_eq_some_iff.mp hsolver
  simpa using hjob

/-- After the second run is completed the flow is the one that was asked for last. -/
theorem flow_of_latest_overlap :
    InOrder {} (overlap ++ [.complete 1 20]) ∧
      (performAll {} (overlap ++ [.complete 1 20])).registry.flow scaling (.index 0) = .ok 2 ∧
      ∃ job fuel result, (performAll {} (overlap ++ [.complete 1 20])).latest scaling =
          some ⟨scaling, some job⟩ ∧ (job.result fuel).outcome = .ok result ∧
        result.verdict = .optimal ∧ ∃ arc : Nat, result.flows[arc]? = some 2 := by
  have horder : InOrder {} (overlap ++ [.complete 1 20]) := by
    refine (inOrder_of_forall (by simp [overlap, send])).append ⟨?_, trivial⟩
    unfold overlap
    rw [performAll_append]
    exact timely_begin _ scaling 20
  have hflow :
      (performAll {} (overlap ++ [.complete 1 20])).registry.flow scaling (.index 0) = .ok 2 :=
    ok_of_toOption (by decide +kernel)
  exact ⟨horder, hflow, flow_of_latest _ horder scaling (.index 0) 2 hflow⟩

/-- The first run, completed after the second one, replaces its result. And a run that was begun
before the supplies were destroyed, completed after the next one could not be begun, brings back a
flow although the last run failed. -/
theorem overtaken_result_returns :
    ((performAll {} (overlap ++ [.complete 1 20, .complete 0 20])).registry.flow scaling (.index 0) =
        .ok 1 ∧
      (((performAll {} (overlap ++ [.complete 1 20, .complete 0 20])).latest scaling).bind
        fun a => a.job.bind fun job => (job.result 20).outcome.toOption.map (·.flows)) =
          some #[2]) ∧
    (performAll {} (overlap ++ [.edit (.destruct supplies .nodeMap), .run scaling 20,
        .complete 1 20])).registry.flow scaling (.index 0) = .ok 2 ∧
      (performAll {} (overlap ++ [.edit (.destruct supplies .nodeMap), .run scaling 20,
        .complete 1 20])).latest scaling = some ⟨scaling, none⟩ := by
  refine ⟨⟨ok_of_toOption (by decide +kernel), by decide +kernel⟩,
    ok_of_toOption (by decide +kernel), eq_failed (by decide +kernel) (by decide +kernel)⟩

end Overlap

end Session

end Registry

end NetworkFlow
