import NetworkFlow.Proofs.Actions
import NetworkFlow.Proofs.HandleTable
import NetworkFlow.Proofs.Refusals
import NetworkFlow.Registry.Basic

/-!
# Results that a registry keeps

A registry keeps the result of a run with its solver (`Registry.stored`), and only completing a run
brings one in. Every other call leaves the results it finds or drops some of them, whether it is
refused or not.

## Main results

* `Edit.keepsOnly`: no edit brings in a result.
* `stored_snapshot`, `stored_complete`: what a solver's results are after the two ends of a run.
* `stored_of_flow`: a flow is read from the stored result.
-/

namespace NetworkFlow

namespace Object

/-- The result that an object keeps. -/
def result? : Object → Option RunResult
  | solver record => record.result
  | _ => none

end Object

namespace Registry

/-- The result that is kept under a handle. -/
def stored (r : Registry) (h : Handle) : Option RunResult :=
  (r.objects.get? h).bind Object.result?

/-- The second registry keeps no result that the first one does not keep. -/
def KeepsOnly (r r' : Registry) : Prop :=
  ∀ h result, r'.stored h = some result → r.stored h = some result

instance : Std.Refl KeepsOnly := ⟨fun _ _ _ h => h⟩

instance : IsTrans Registry KeepsOnly := ⟨fun _ _ _ h h' s result hs => h s result (h' s result hs)⟩

/-- A call that is not about the run of a solver. -/
inductive Edit where
  | destruct (h : Handle) (kind : ObjectKind)
  | deleteObject (h : Handle)
  | newListDigraph
  | newStaticDigraph
  | addNode (graph : Handle)
  | addArc (graph : Handle) (tail head : KeyRef)
  | newPairList
  | pushPair (list : Handle) (first second : Int)
  | buildStatic (graph : Handle) (nodes : Int) (pairs : Handle)
  | newMap (kind : KeyKind) (graph : Handle) (type : ValueType)
  | mapSet (kind : KeyKind) (type : ValueType) (map : Handle) (key : KeyRef) (value : type.Value)
  | newSolver (graph : Handle) (algorithm : Algorithm) (flowType costType : ValueType)
  | attach (solver : Handle) (role : MapRole) (map : Handle)

/-- Makes an edit. The handle it may answer with is left to the registry. -/
def Edit.apply (r : Registry) : Edit → Registry
  | destruct h kind => ((Registry.destruct h kind).run r).2
  | deleteObject h => ((Registry.deleteObject h).run r).2
  | newListDigraph => (Registry.newListDigraph.run r).2
  | newStaticDigraph => (Registry.newStaticDigraph.run r).2
  | addNode graph => ((Registry.addNode graph).run r).2
  | addArc graph tail head => ((Registry.addArc graph tail head).run r).2
  | newPairList => (Registry.newPairList.run r).2
  | pushPair list first second => ((Registry.pushPair list first second).run r).2
  | buildStatic graph nodes pairs => ((Registry.buildStatic graph nodes pairs).run r).2
  | newMap kind graph type => ((Registry.newMap kind graph type).run r).2
  | mapSet kind type map key value => ((Registry.mapSet kind type map key value).run r).2
  | newSolver graph algorithm flowType costType =>
      ((Registry.newSolver graph algorithm flowType costType).run r).2
  | attach solver role map => ((Registry.attach solver role map).run r).2

section Edits

open NetworkFlow.Action

theorem keepsOnly_insert {object : Object} (h : object.result? = none) :
    Respects KeepsOnly (insert object) := by
  intro r s result hs
  unfold stored at hs ⊢
  obtain ⟨x, hx, hresult⟩ := Option.bind_eq_some_iff.mp hs
  rcases HandleTable.get?_insert hx with rfl | hx
  · rw [h] at hresult
    cases hresult
  · rw [hx]
    exact hresult

theorem stored_set (r : Registry) (h : Handle) (object : Object) (s : Handle) :
    ({ r with objects := r.objects.set h object } : Registry).stored s =
      if s = h ∧ r.objects.contains h then object.result? else r.stored s := by
  unfold stored
  rw [HandleTable.get?_set]
  split_ifs <;> rfl

theorem keepsOnly_replace {h : Handle} {object : Object} (hnone : object.result? = none) :
    Respects KeepsOnly (replace h object) := by
  intro r s result hs
  have hset := (stored_set r h object s).symm.trans hs
  split_ifs at hset with hif
  · rw [hnone] at hset
    cases hset
  · exact hset

theorem keepsOnly_destruct (h : Handle) (kind : ObjectKind) :
    Respects KeepsOnly (destruct h kind) := by
  intro r
  unfold destruct
  rw [run_bind]
  simp only [run_get]
  refine respects_lift_bind fun actual _ => ?_
  split
  · exact respects_refuse _ r
  · refine respects_lift_bind fun left hremove s result hs => ?_
    obtain ⟨objects, removed⟩ := left
    change (objects.get? s).bind Object.result? = some result at hs
    rw [HandleTable.get?_remove hremove] at hs
    split_ifs at hs
    · cases hs
    · exact hs

theorem keepsOnly_freshGraph : Respects KeepsOnly freshGraph := fun _ _ _ h => h

theorem keepsOnly_deleteObject (h : Handle) : Respects KeepsOnly (deleteObject h) := by
  unfold deleteObject
  refine Respects.of_get fun r => Respects.of_look fun kind => ?_
  split
  · exact keepsOnly_destruct h .node
  · exact keepsOnly_destruct h .arc
  · exact respects_refuse _

theorem keepsOnly_addNode (graph : Handle) : Respects KeepsOnly (addNode graph) := by
  unfold addNode
  refine Respects.of_get fun r => Respects.of_look fun object => ?_
  refine Respects.of_look fun g => ?_
  exact (keepsOnly_replace rfl).bind fun _ => keepsOnly_insert rfl

theorem keepsOnly_addArc (graph : Handle) (tail head : KeyRef) :
    Respects KeepsOnly (addArc graph tail head) := by
  unfold addArc
  refine Respects.of_get fun r => Respects.of_look fun tail => ?_
  refine Respects.of_look fun head => Respects.of_look fun object => ?_
  refine Respects.of_look fun g => Respects.of_logged fun grown => ?_
  exact (keepsOnly_replace rfl).bind fun _ => keepsOnly_insert rfl

theorem keepsOnly_pushPair (list : Handle) (first second : Int) :
    Respects KeepsOnly (pushPair list first second) := by
  unfold pushPair
  refine Respects.of_get fun r => Respects.of_look fun object => ?_
  exact Respects.of_look fun pairs => keepsOnly_replace rfl

theorem keepsOnly_buildStatic (graph : Handle) (nodes : Int) (pairs : Handle) :
    Respects KeepsOnly (buildStatic graph nodes pairs) := by
  unfold buildStatic
  refine Respects.of_get fun r => Respects.of_look fun object => ?_
  refine Respects.of_look fun pairs => ?_
  simp only
  split
  · exact respects_refused
  · refine Respects.of_look fun object => Respects.of_look fun g => ?_
    exact Respects.of_logged fun built => keepsOnly_replace rfl

theorem keepsOnly_newMap (kind : KeyKind) (graph : Handle) (type : ValueType) :
    Respects KeepsOnly (newMap kind graph type) := by
  unfold newMap
  exact Respects.of_get fun r => Respects.of_look fun g => keepsOnly_insert rfl

theorem keepsOnly_mapSet (kind : KeyKind) (type : ValueType) (map : Handle) (key : KeyRef)
    (value : type.Value) : Respects KeepsOnly (mapSet kind type map key value) := by
  unfold mapSet
  refine Respects.of_get fun r => Respects.of_look fun object => ?_
  refine Respects.of_look fun found => Respects.of_look fun key => ?_
  refine Respects.of_look fun typed => Respects.of_look fun changed => ?_
  exact keepsOnly_replace rfl

theorem keepsOnly_newSolver (graph : Handle) (algorithm : Algorithm)
    (flowType costType : ValueType) :
    Respects KeepsOnly (newSolver graph algorithm flowType costType) := by
  unfold newSolver
  refine Respects.of_get fun r => Respects.of_look fun g => ?_
  split
  · exact respects_refused
  · exact keepsOnly_insert rfl

theorem result?_attach (record : SolverRecord) (role : MapRole) (map : Handle) :
    (Object.solver (record.attach role map)).result? = none := by
  cases role <;> rfl

theorem keepsOnly_attach (solver : Handle) (role : MapRole) (map : Handle) :
    Respects KeepsOnly (attach solver role map) := by
  unfold attach
  refine Respects.of_get fun r => Respects.of_look fun record => ?_
  refine Respects.of_look fun object => Respects.of_look fun found => ?_
  have hreplace : Respects KeepsOnly (replace solver (.solver (record.attach role map))) :=
    keepsOnly_replace (result?_attach record role map)
  obtain ⟨owner, values⟩ := found
  simp only
  split
  · exact respects_refused
  · split
    · exact respects_refused
    · exact hreplace

/-- No edit brings in a result. -/
theorem Edit.keepsOnly (edit : Edit) (r : Registry) : r.KeepsOnly (edit.apply r) := by
  cases edit with
  | destruct h kind => exact keepsOnly_destruct h kind r
  | deleteObject h => exact keepsOnly_deleteObject h r
  | newListDigraph => exact (keepsOnly_freshGraph.bind fun id => keepsOnly_insert rfl) r
  | newStaticDigraph => exact (keepsOnly_freshGraph.bind fun id => keepsOnly_insert rfl) r
  | addNode graph => exact keepsOnly_addNode graph r
  | addArc graph tail head => exact keepsOnly_addArc graph tail head r
  | newPairList => exact keepsOnly_insert rfl r
  | pushPair list first second => exact keepsOnly_pushPair list first second r
  | buildStatic graph nodes pairs => exact keepsOnly_buildStatic graph nodes pairs r
  | newMap kind graph type => exact keepsOnly_newMap kind graph type r
  | mapSet kind type map key value => exact keepsOnly_mapSet kind type map key value r
  | newSolver graph algorithm flowType costType =>
      exact keepsOnly_newSolver graph algorithm flowType costType r
  | attach solver role map => exact keepsOnly_attach solver role map r

end Edits

section Runs

variable {r : Registry} {h s : Handle} {record : SolverRecord} {result : RunResult}

theorem solver_eq_ok : r.solver h = .ok record ↔ r.objects.get? h = some (.solver record) := by
  unfold solver object
  rw [bind_eq_ok]
  constructor
  · rintro ⟨object, hobject, hsolver⟩
    rw [HandleTable.get_eq_ok] at hobject
    cases object <;> cases hsolver
    exact hobject
  · exact fun hget => ⟨_, HandleTable.get_eq_ok.mpr hget, rfl⟩

theorem stored_of_solver (hrecord : r.solver h = .ok record) : r.stored h = record.result := by
  unfold stored
  rw [solver_eq_ok.mp hrecord]
  rfl

/-- Only solvers keep results. -/
theorem exists_solver_of_stored (hstored : r.stored h = some result) :
    ∃ record, r.solver h = .ok record := by
  unfold stored at hstored
  obtain ⟨object, hobject, hresult⟩ := Option.bind_eq_some_iff.mp hstored
  cases object with
  | solver record => exact ⟨record, solver_eq_ok.mpr hobject⟩
  | _ => cases hresult

/-- A flow is read from the result that is kept with the solver. -/
theorem stored_of_flow {key : KeyRef} {x : Int} (hflow : r.flow h key = .ok x) :
    ∃ result, r.stored h = some result ∧ result.verdict = .optimal ∧
      ∃ arc : Nat, result.flows[arc]? = some x := by
  obtain ⟨record, hrecord, hflow⟩ := bind_eq_ok.mp hflow
  rw [stored_of_solver hrecord]
  cases hresult : record.result with
  | none =>
      rw [hresult] at hflow
      cases hflow
  | some result =>
      rw [hresult] at hflow
      simp only at hflow
      split at hflow
      · cases hflow
      · rename_i hverdict
        obtain ⟨arc, -, hflow⟩ := bind_eq_ok.mp hflow
        refine ⟨result, rfl, Decidable.not_not.mp hverdict, arc.index, ?_⟩
        unfold Solver.elementAt at hflow
        split at hflow
        · rename_i hget
          cases hflow
          exact hget
        · cases hflow

/-- What is copied for a run is that of the solver. -/
theorem solver_of_jobOf {job : RunJob} (hjob : r.jobOf h record = .ok job) : job.solver = h := by
  obtain ⟨_, -, hjob⟩ := bind_eq_ok.mp hjob
  obtain ⟨_, -, hjob⟩ := bind_eq_ok.mp hjob
  obtain ⟨_, -, hjob⟩ := bind_eq_ok.mp hjob
  obtain ⟨_, -, hjob⟩ := bind_eq_ok.mp hjob
  obtain ⟨_, -, hjob⟩ := bind_eq_ok.mp hjob
  cases hjob
  rfl

/-- A snapshot of something that is no solver changes nothing. -/
theorem run_snapshot_of_error {cause : Error} (hsolver : r.solver h = .error cause) :
    (snapshot h).run r = (⟨[], .error (.refused cause)⟩, r) := by
  unfold snapshot
  rw [Action.run_get_bind, hsolver, Action.run_error_bind]

/-- A snapshot drops the result before it copies anything. -/
theorem run_snapshot_of_ok (hrecord : r.solver h = .ok record) :
    (snapshot h).run r = (Logged.ofExcept (r.jobOf h { record with result := none }),
      { r with objects := r.objects.set h (.solver { record with result := none }) }) := by
  unfold snapshot
  rw [Action.run_get_bind, hrecord, Action.run_ok_bind]
  rfl

theorem solver_of_snapshot {job : RunJob} (hjob : ((snapshot h).run r).1.outcome = .ok job) :
    job.solver = h := by
  cases hsolver : r.solver h with
  | error cause =>
      rw [run_snapshot_of_error hsolver] at hjob
      cases hjob
  | ok record =>
      rw [run_snapshot_of_ok hsolver] at hjob
      exact solver_of_jobOf (Logged.outcome_ofExcept_eq_ok.mp hjob)

/-- After a snapshot no result is kept with the solver, also if the snapshot failed. -/
theorem stored_snapshot (r : Registry) (h s : Handle) :
    ((snapshot h).run r).2.stored s = if s = h then none else r.stored s := by
  cases hsolver : r.solver h with
  | error cause =>
      have hnone : r.stored h = none := by
        cases hstored : r.stored h with
        | none => rfl
        | some result =>
            obtain ⟨record, hrecord⟩ := exists_solver_of_stored hstored
            rw [hsolver] at hrecord
            cases hrecord
      rw [run_snapshot_of_error hsolver]
      split_ifs with heq
      · rw [heq]
        exact hnone
      · rfl
  | ok record =>
      have hcontains : r.objects.contains h :=
        HandleTable.contains_iff.mpr ⟨_, solver_eq_ok.mp hsolver⟩
      rw [run_snapshot_of_ok hsolver, stored_set]
      simp [hcontains, Object.result?]

/-- The result of a run is taken if its solver is alive and was not reconfigured. -/
theorem complete_of_ok {run : CompletedRun} (hrecord : r.solver run.solver = .ok record)
    (hresult : run.result = .ok result) :
    ((complete run).run r).2 = if record.revision = run.revision then
        { r with objects := r.objects.set run.solver (.solver { record with result := some result }) }
      else r := by
  unfold complete
  rw [Action.run_get_bind, hrecord, Action.run_ok_bind, hresult, Action.run_bind]
  simp only [Action.run_ofLogged]
  split_ifs <;> rfl

/-- A run without a result changes nothing. -/
theorem complete_of_error {run : CompletedRun} {fault : Fault} (hresult : run.result = .error fault) :
    ((complete run).run r).2 = r := by
  unfold complete
  rw [Action.run_get_bind, hresult]
  cases r.solver run.solver <;> rfl

/-- A run of a solver that is no longer alive changes nothing. -/
theorem complete_of_dead {run : CompletedRun} {cause : Error}
    (hsolver : r.solver run.solver = .error cause) : ((complete run).run r).2 = r := by
  unfold complete
  rw [Action.run_get_bind, hsolver, Action.run_error_bind]

/-- A result that is kept after a run is completed was kept before or is that of the run. -/
theorem stored_complete {run : CompletedRun}
    (hstored : ((complete run).run r).2.stored s = some result) :
    r.stored s = some result ∨ s = run.solver ∧ run.result = .ok result ∧
      ∃ record, r.solver s = .ok record ∧ record.revision = run.revision := by
  cases hsolver : r.solver run.solver with
  | error cause => exact .inl (by rwa [complete_of_dead hsolver] at hstored)
  | ok record =>
      cases hresult : run.result with
      | error fault => exact .inl (by rwa [complete_of_error hresult] at hstored)
      | ok found =>
          rw [complete_of_ok hsolver hresult] at hstored
          split_ifs at hstored with hrevision
          · rw [stored_set] at hstored
            split_ifs at hstored with htaken
            · obtain ⟨rfl, -⟩ := htaken
              cases hstored
              exact .inr ⟨rfl, rfl, record, hsolver, hrevision⟩
            · exact .inl hstored
          · exact .inl hstored

end Runs

end Registry

end NetworkFlow
