import Mathlib.Control.Monad.Basic
import NetworkFlow.Proofs.HandleTable.Adjust
import NetworkFlow.Proofs.Registry.Requests

/-!
# Requests that are refused

A request looks up everything it needs, and checks it, before it changes anything: the only change
that comes before a look is that a run drops the last result of its solver. So a registry that refused
a request is as it was, but for that result.

Nothing but the flows of that solver is read from its result. A registry and the same registry without
the result of a solver therefore answer everything else alike, and stay alike until a run of the solver
is completed, from when on they are the same (`Alike`).

## Main results

* `after_of_refused`: what a registry is after it refused a request.
* `Alike.perform`: what every request keeps.
* `refused_unnoticed`: nothing that is asked for later is answered otherwise.
-/

namespace NetworkFlow

namespace Object

/-- The object without a result. -/
def forget : Object → Object
  | solver record => solver { record with result := none }
  | object => object

variable (object : Object)

theorem kind_forget : object.forget.kind = object.kind := by cases object <;> rfl

theorem graph?_forget : object.forget.graph? = object.graph? := by cases object <;> rfl

theorem listDigraph?_forget : object.forget.listDigraph? = object.listDigraph? := by
  cases object <;> rfl

theorem staticDigraph?_forget : object.forget.staticDigraph? = object.staticDigraph? := by
  cases object <;> rfl

theorem pairList?_forget : object.forget.pairList? = object.pairList? := by cases object <;> rfl

theorem key?_forget (kind : KeyKind) : object.forget.key? kind = object.key? kind := by
  cases object <;> rfl

theorem index?_forget : object.forget.index? = object.index? := by cases object <;> rfl

theorem map?_forget (kind : KeyKind) : object.forget.map? kind = object.map? kind := by
  cases object <;> rfl

theorem solver?_forget : object.forget.solver? =
    (fun record => { record with result := none }) <$> object.solver? := by
  cases object <;> rfl

end Object

namespace Registry

open NetworkFlow.Action

variable {r r' : Registry} {h s : Handle} {object : Object}

/-! ## What a refused request leaves behind -/

section Atomic

theorem sure_insert (object : Object) : Sure (insert object) :=
  fun r => ⟨(r.objects.insert object).2, rfl⟩

theorem sure_replace (h : Handle) (object : Object) : Sure (replace h object) := fun _ => ⟨(), rfl⟩

theorem atomicAt_refuse {α : Type} (cause : Error) : AtomicAt r (refuse cause : Action Registry α) :=
  atomicAt_ofLogged _

theorem atomicAt_refused {α β : Type} {cause : Error} {f : α → Action Registry β} :
    AtomicAt r (refuse cause >>= f) := fun _ _ => rfl

theorem atomicAt_destruct (r : Registry) (h : Handle) (kind : ObjectKind) :
    AtomicAt r (destruct h kind) := by
  refine .of_get (.look fun actual _ => ?_)
  split
  · exact atomicAt_refused
  · exact .look fun left _ => Sure.atomicAt fun _ => ⟨(), rfl⟩

theorem atomicAt_deleteObject (r : Registry) (h : Handle) : AtomicAt r (deleteObject h) := by
  refine .of_get (.look fun kind _ => ?_)
  split
  · exact atomicAt_destruct r h .node
  · exact atomicAt_destruct r h .arc
  · exact atomicAt_refuse _

theorem atomicAt_addNode (r : Registry) (graph : Handle) : AtomicAt r (addNode graph) :=
  .of_get (.look fun _ _ => .look fun _ _ => ((sure_replace _ _).bind fun _ => sure_insert _).atomicAt)

theorem atomicAt_addArc (r : Registry) (graph : Handle) (tail head : KeyRef) :
    AtomicAt r (addArc graph tail head) := by
  refine .of_get (.look fun tail _ => .look fun head _ => ?_)
  refine .look fun _ _ => .look fun g _ => .logged fun grown => ?_
  exact ((sure_replace _ _).bind fun _ => sure_insert _).atomicAt

theorem atomicAt_pushPair (r : Registry) (list : Handle) (first second : Int) :
    AtomicAt r (pushPair list first second) :=
  .of_get (.look fun _ _ => .look fun _ _ => (sure_replace _ _).atomicAt)

theorem atomicAt_buildStatic (r : Registry) (graph : Handle) (nodes : Int) (pairs : Handle) :
    AtomicAt r (buildStatic graph nodes pairs) := by
  refine .of_get (.look fun _ _ => .look fun pairs _ => ?_)
  simp only
  split
  · exact atomicAt_refused
  · exact .look fun _ _ => .look fun g _ => .logged fun built => (sure_replace _ _).atomicAt

theorem atomicAt_newMap (r : Registry) (kind : KeyKind) (graph : Handle) (type : ValueType) :
    AtomicAt r (newMap kind graph type) :=
  .of_get (.look fun _ _ => (sure_insert _).atomicAt)

theorem atomicAt_mapSet (r : Registry) (kind : KeyKind) (type : ValueType) (map : Handle)
    (key : KeyRef) (value : type.Value) : AtomicAt r (mapSet kind type map key value) := by
  refine .of_get (.look fun _ _ => .look fun found _ => .look fun key _ => ?_)
  exact .look fun typed _ => .look fun changed _ => (sure_replace _ _).atomicAt

theorem atomicAt_newSolver (r : Registry) (graph : Handle) (algorithm : Algorithm)
    (flowType costType : ValueType) : AtomicAt r (newSolver graph algorithm flowType costType) := by
  refine .of_get (.look fun g _ => ?_)
  split
  · exact atomicAt_refused
  · exact (sure_insert _).atomicAt

theorem atomicAt_attach (r : Registry) (solver : Handle) (role : MapRole) (map : Handle) :
    AtomicAt r (attach solver role map) := by
  refine .of_get (.look fun record _ => .look fun _ _ => .look fun found _ => ?_)
  obtain ⟨owner, values⟩ := found
  simp only
  split
  · exact atomicAt_refused
  · split
    · exact atomicAt_refused
    · exact (sure_replace _ _).atomicAt

/-- An edit that is refused changes nothing. -/
theorem Edit.atomicAt (edit : Edit) (r : Registry) : AtomicAt r edit.action := by
  cases edit with
  | destruct h kind => exact (atomicAt_destruct r h kind).map _
  | deleteObject h => exact (atomicAt_deleteObject r h).map _
  | newListDigraph => exact Sure.atomicAt fun r => ⟨_, rfl⟩
  | newStaticDigraph => exact Sure.atomicAt fun r => ⟨_, rfl⟩
  | addNode graph => exact (atomicAt_addNode r graph).map _
  | addArc graph tail head => exact (atomicAt_addArc r graph tail head).map _
  | newPairList => exact (sure_insert _).atomicAt.map _
  | pushPair list first second => exact (atomicAt_pushPair r list first second).map _
  | buildStatic graph nodes pairs => exact (atomicAt_buildStatic r graph nodes pairs).map _
  | newMap kind graph type => exact (atomicAt_newMap r kind graph type).map _
  | mapSet kind type map key value => exact (atomicAt_mapSet r kind type map key value).map _
  | newSolver graph algorithm flowType costType =>
      exact (atomicAt_newSolver r graph algorithm flowType costType).map _
  | attach solver role map => exact (atomicAt_attach r solver role map).map _

/-- A run that cannot be completed changes nothing. -/
theorem atomicAt_complete (r : Registry) (run : CompletedRun) : AtomicAt r (complete run) := by
  refine .of_get (.look fun record _ => ?_)
  refine AtomicAt.logged (y := ⟨[], run.result⟩) fun result => ?_
  split
  · exact Sure.atomicAt fun _ => ⟨_, rfl⟩
  · exact Sure.atomicAt fun _ => ⟨_, rfl⟩

/-- A registry that refused a request is as it was, but for the last result of a solver of which the
request was to begin a run. -/
theorem after_of_refused {request : Request} {fault : Fault}
    (hrefused : (request.answer r).outcome = .error fault) :
    Request.after r request = match request.begins with
      | none => r
      | some solver => r.discard solver := by
  cases request with
  | edit edit => exact edit.atomicAt r fault hrefused
  | snapshot solver => exact congrArg Prod.snd (run_snapshot r solver)
  | complete done => exact atomicAt_complete r done fault hrefused
  | look query => exact after_look r query
  | run solver fuel =>
      show ((Registry.run fuel solver).run r).2 = r.discard solver
      change ((Registry.run fuel solver).run r).1.outcome = _ at hrefused
      rw [run_run] at hrefused ⊢
      cases hcopied : r.copied solver with
      | error cause => rfl
      | ok job =>
          rw [hcopied] at hrefused
          exact atomicAt_complete (r.discard solver) _ fault hrefused

end Atomic

/-! ## A registry without the last result of a solver -/

/-- The registry without the result of a solver. -/
def erase (s : Handle) (r : Registry) : Registry :=
  { r with objects := r.objects.adjust s Object.forget }

theorem discard_eq_erase (r : Registry) (s : Handle) : r.discard s = r.erase s := by
  unfold discard erase
  cases hsolver : r.solver s with
  | ok record =>
      have hget := solver_eq_ok.mp hsolver
      simp only [HandleTable.adjust_of_get? hget, Object.forget]
  | error cause =>
      have hfixed : ∀ object, r.objects.get? s = some object → object.forget = object := by
        intro object hget
        cases object with
        | solver record =>
            rw [solver_eq_ok.mpr hget] at hsolver
            cases hsolver
        | _ => rfl
      simp only [HandleTable.adjust_eq_self hfixed]

/-! ### What is looked up -/

section Look

variable {α : Type}

theorem object_erase (r : Registry) (s h : Handle) :
    (r.erase s).object h = (if h = s then Object.forget else id) <$> r.object h := by
  show (r.objects.adjust s Object.forget).get h = _ <$> r.objects.get h
  unfold HandleTable.get
  rw [HandleTable.get?_adjust]
  cases r.objects.get? h <;> split_ifs <;> rfl

/-- What is looked up in an object is the same unless it is a result. -/
theorem look_erase {view : Object → Except Error α} (hview : ∀ object : Object,
    view object.forget = view object) (r : Registry) (s h : Handle) :
    (r.erase s).object h >>= view = r.object h >>= view := by
  rw [object_erase]
  cases r.object h with
  | error cause => rfl
  | ok object =>
      split_ifs
      · exact hview object
      · rfl

theorem kind_erase (r : Registry) (s h : Handle) : (r.erase s).kind h = r.kind h :=
  look_erase (fun object => by rw [object.kind_forget]) r s h

theorem graph_erase (r : Registry) (s h : Handle) : (r.erase s).graph h = r.graph h :=
  look_erase Object.graph?_forget r s h

theorem resolve_erase (r : Registry) (s graph : Handle) (kind : KeyKind) (key : KeyRef) :
    (r.erase s).resolve graph kind key = r.resolve graph kind key := by
  unfold resolve
  rw [graph_erase]
  cases key with
  | index i => rfl
  | handle h =>
      refine congrArg _ (funext fun g => ?_)
      exact look_erase (fun object => by rw [object.key?_forget]) r s h

theorem map_erase (r : Registry) (s map : Handle) (kind : KeyKind) :
    (r.erase s).object map >>= (·.map? kind) = r.object map >>= (·.map? kind) :=
  look_erase (fun object => object.map?_forget kind) r s map

theorem solver_erase (r : Registry) (s h : Handle) : (r.erase s).solver h =
    (if h = s then (fun record => { record with result := none }) else id) <$> r.solver h := by
  unfold solver
  rw [object_erase]
  cases r.object h with
  | error cause => split_ifs <;> rfl
  | ok object =>
      split_ifs
      · exact object.solver?_forget
      · exact (id_map _).symm

theorem contains_erase (r : Registry) (s h : Handle) :
    (r.erase s).objects.contains h = r.objects.contains h :=
  HandleTable.contains_adjust r.objects s Object.forget h

/-- What is copied for a run is copied without the last result. -/
theorem copied_erase (r : Registry) (s h : Handle) : (r.erase s).copied h = r.copied h := by
  have hmap : ∀ (kind : KeyKind) (map : Option Handle),
      (r.erase s).solverMap kind map = r.solverMap kind map := by
    intro kind map
    cases map with
    | none => rfl
    | some map =>
        have hfound : ((r.erase s).object map).bind (·.map? kind) =
            (r.object map).bind (·.map? kind) := map_erase r s map kind
        simp only [solverMap, hfound]
  have hjob : ∀ record, (r.erase s).jobOf h record = r.jobOf h record := by
    intro record
    unfold jobOf solverGraph
    simp only [graph_erase, hmap]
  unfold copied
  rw [solver_erase]
  cases r.solver h with
  | error cause => split_ifs <;> rfl
  | ok record => split_ifs <;> exact hjob _

/-- Only the flows of the solver are read from its result. -/
theorem ask_erase (r : Registry) (s : Handle) {query : Query}
    (hquery : ∀ arc, query ≠ .flow s arc) : query.ask (r.erase s) = query.ask r := by
  cases query with
  | size => rfl
  | kind h => exact kind_erase r s h
  | nodeCount graph =>
      show (do return (← (r.erase s).graph graph).nodeCount) = _
      rw [graph_erase]
      rfl
  | arcCount graph =>
      show (do return (← (r.erase s).graph graph).arcCount) = _
      rw [graph_erase]
      rfl
  | indexOf h => exact look_erase Object.index?_forget r s h
  | mapGet kind type map key =>
      refine (look_erase (fun object => ?_) r s map).trans ?_
      · rw [object.map?_forget]
      · simp only [resolve_erase]
        rfl
  | flow solver arc =>
      have hne : solver ≠ s := fun heq => hquery arc (by rw [heq])
      show (r.erase s).flow solver arc = r.flow solver arc
      unfold flow solverArc
      simp only [solver_erase, if_neg hne, id_map, resolve_erase, contains_erase]

end Look

/-! ### What requests make of it -/

section Carried

theorem carries_freshGraph : Carries (erase s) r freshGraph freshGraph := rfl

theorem carries_insert (hfixed : object.forget = object) :
    Carries (erase s) r (insert object) (insert object) := by
  have hinsert := HandleTable.insert_adjust hfixed r.objects s
  have hrun : ∀ r : Registry, (insert object).run r =
      (⟨[.constructed object.kind (r.objects.insert object).2], .ok (r.objects.insert object).2⟩,
        { r with objects := (r.objects.insert object).1 }) := fun _ => rfl
  unfold Carries
  rw [hrun, hrun]
  simp only [erase, hinsert]

theorem carries_replace (hfixed : object.forget = object) :
    Carries (erase s) r (replace h object) (replace h object) := by
  have hset : (r.objects.adjust s Object.forget).set h object =
      (r.objects.set h object).adjust s Object.forget :=
    HandleTable.set_adjust (fun _ => hfixed) r.objects
  exact congrArg (fun objects => ((.ofValue (), { r with objects := objects }) :
    Logged Unit × Registry)) hset

theorem carries_destruct (h : Handle) (kind : ObjectKind) :
    Carries (erase s) r (destruct h kind) (destruct h kind) := by
  refine .of_get (.look (kind_erase r s h) fun actual => ?_)
  split
  · rfl
  · refine .look_map (HandleTable.remove_adjust r.objects s Object.forget h) fun left => ?_
    rfl

theorem carries_deleteObject (h : Handle) :
    Carries (erase s) r (deleteObject h) (deleteObject h) := by
  refine .of_get (.look (kind_erase r s h) fun kind => ?_)
  split
  · exact carries_destruct h .node
  · exact carries_destruct h .arc
  · rfl

theorem carries_addNode (graph : Handle) :
    Carries (erase s) r (addNode graph) (addNode graph) :=
  .of_get (.look_through (look_erase Object.listDigraph?_forget r s graph) fun _ =>
    (carries_replace rfl).bind fun _ _ => carries_insert rfl)

theorem carries_addArc (graph : Handle) (tail head : KeyRef) :
    Carries (erase s) r (addArc graph tail head) (addArc graph tail head) := by
  refine .of_get (.look (resolve_erase r s graph .node tail) fun tail => ?_)
  refine .look (resolve_erase r s graph .node head) fun head => ?_
  refine .look_through (look_erase Object.listDigraph?_forget r s graph) fun g => ?_
  exact .logged fun grown => (carries_replace rfl).bind fun _ _ => carries_insert rfl

theorem carries_pushPair (list : Handle) (first second : Int) :
    Carries (erase s) r (pushPair list first second) (pushPair list first second) :=
  .of_get (.look_through (look_erase Object.pairList?_forget r s list) fun _ => carries_replace rfl)

theorem carries_buildStatic (graph : Handle) (nodes : Int) (pairs : Handle) :
    Carries (erase s) r (buildStatic graph nodes pairs) (buildStatic graph nodes pairs) := by
  refine .of_get (.look_through (look_erase Object.pairList?_forget r s pairs) fun pairs => ?_)
  simp only
  split
  · rfl
  · refine .look_through (look_erase Object.staticDigraph?_forget r s graph) fun g => ?_
    exact .logged fun built => carries_replace rfl

theorem carries_newMap (kind : KeyKind) (graph : Handle) (type : ValueType) :
    Carries (erase s) r (newMap kind graph type) (newMap kind graph type) :=
  .of_get (.look (graph_erase r s graph) fun _ => carries_insert rfl)

theorem carries_mapSet (kind : KeyKind) (type : ValueType) (map : Handle) (key : KeyRef)
    (value : type.Value) :
    Carries (erase s) r (mapSet kind type map key value) (mapSet kind type map key value) := by
  refine .of_get (.look_through (map_erase r s map kind) fun found => ?_)
  refine .look (resolve_erase r s found.1 kind key) fun key => ?_
  exact .look rfl fun typed => .look rfl fun changed => carries_replace rfl

theorem carries_newSolver (graph : Handle) (algorithm : Algorithm) (flowType costType : ValueType) :
    Carries (erase s) r (newSolver graph algorithm flowType costType)
      (newSolver graph algorithm flowType costType) := by
  refine .of_get (.look (graph_erase r s graph) fun g => ?_)
  split
  · rfl
  · exact carries_insert rfl

theorem carries_attach (solver : Handle) (role : MapRole) (map : Handle) :
    Carries (erase s) r (attach solver role map) (attach solver role map) := by
  refine .of_get (.look_map (solver_erase r s solver) fun record => ?_)
  refine .look_through (map_erase r s map role.keyKind) fun found => ?_
  obtain ⟨owner, values⟩ := found
  -- Nothing but the result is different in what the two find, and attaching drops that.
  have hsame : ∀ record : SolverRecord,
      SolverRecord.attach { record with result := none } role map = record.attach role map :=
    fun record => by cases role <;> rfl
  have hexpected : SolverRecord.expected { record with result := none } role =
      record.expected role := by
    cases role <;> rfl
  have hfixed : (Object.solver (record.attach role map)).forget =
      .solver (record.attach role map) := by
    cases role <;> rfl
  simp only
  by_cases hs : solver = s
  · simp only [if_pos hs, hsame, hexpected]
    split
    · rfl
    · split
      · rfl
      · exact carries_replace hfixed
  · simp only [if_neg hs, id]
    split
    · rfl
    · split
      · rfl
      · exact carries_replace hfixed

/-- An edit makes no difference between a registry and the same one without a result. -/
theorem Edit.carries (edit : Edit) : Carries (erase s) r edit.action edit.action := by
  cases edit with
  | destruct h kind => exact (carries_destruct h kind).map _
  | deleteObject h => exact (carries_deleteObject h).map _
  | newListDigraph => exact (carries_freshGraph.bind fun _ _ => carries_insert rfl).map _
  | newStaticDigraph => exact (carries_freshGraph.bind fun _ _ => carries_insert rfl).map _
  | addNode graph => exact (carries_addNode graph).map _
  | addArc graph tail head => exact (carries_addArc graph tail head).map _
  | newPairList => exact (carries_insert rfl).map _
  | pushPair list first second => exact (carries_pushPair list first second).map _
  | buildStatic graph nodes pairs => exact (carries_buildStatic graph nodes pairs).map _
  | newMap kind graph type => exact (carries_newMap kind graph type).map _
  | mapSet kind type map key value => exact (carries_mapSet kind type map key value).map _
  | newSolver graph algorithm flowType costType =>
      exact (carries_newSolver graph algorithm flowType costType).map _
  | attach solver role map => exact (carries_attach solver role map).map _

end Carried

/-! ### Registries that answer alike -/

/-- The second registry is the first one, or the first one without the result of a solver. -/
def Alike (s : Handle) (r r' : Registry) : Prop := r' = r ∨ r' = r.erase s

theorem erase_comm (r : Registry) (s h : Handle) :
    (r.erase s).erase h = (r.erase h).erase s := by
  simp only [erase, HandleTable.adjust_comm r.objects s h]

/-- Completing a run of the solver brings in a result for both of them. -/
theorem complete_erase (r : Registry) (s : Handle) (done : CompletedRun) :
    ((complete done).run (r.erase s)).1 = ((complete done).run r).1 ∧
      Alike s ((complete done).run r).2 ((complete done).run (r.erase s)).2 := by
  rw [run_complete, run_complete, solver_erase]
  cases r.solver done.solver with
  | error cause => split_ifs <;> exact ⟨rfl, .inr rfl⟩
  | ok record =>
      cases done.result with
      | error fault => split_ifs <;> exact ⟨rfl, .inr rfl⟩
      | ok result =>
          by_cases hs : done.solver = s
          · subst hs
            rw [if_pos rfl, Except.map_ok]
            by_cases hrevision : record.revision = done.revision
            · refine ⟨by simp [hrevision], .inl ?_⟩
              simp [erase, hrevision, HandleTable.set_adjust_self]
            · exact ⟨by simp [hrevision], .inr (by simp [hrevision])⟩
          · rw [if_neg hs, id_map]
            by_cases hrevision : record.revision = done.revision
            · refine ⟨by simp [hrevision], .inr ?_⟩
              simp [erase, hrevision, HandleTable.set_adjust fun heq => absurd heq hs]
            · exact ⟨by simp [hrevision], .inr (by simp [hrevision])⟩

/-- Registries that are alike answer alike, except for the flows of the solver, and stay alike. -/
theorem Alike.perform {request : Request} (halike : Alike s r r') :
    ((∀ arc, request ≠ .look (.flow s arc)) → request.answer r' = request.answer r) ∧
      Alike s (Request.after r request) (Request.after r' request) := by
  rcases halike with rfl | rfl
  · exact ⟨fun _ => rfl, .inl rfl⟩
  cases request with
  | edit edit =>
      have hcarries : edit.action.run (r.erase s) =
          ((edit.action.run r).1, (edit.action.run r).2.erase s) := edit.carries
      exact ⟨fun _ => (congrArg Prod.fst hcarries :), .inr (congrArg Prod.snd hcarries)⟩
  | snapshot solver =>
      have hrun : (snapshot solver).run (r.erase s) =
          (((snapshot solver).run r).1, ((snapshot solver).run r).2.erase s) := by
        rw [run_snapshot, run_snapshot, copied_erase]
        simp only [discard_eq_erase, erase_comm r s solver]
      exact ⟨fun _ => (congrArg Prod.fst hrun :), .inr (congrArg Prod.snd hrun)⟩
  | complete done =>
      obtain ⟨hanswer, hafter⟩ := complete_erase r s done
      exact ⟨fun _ => hanswer, hafter⟩
  | run solver fuel =>
      show (_ → ((Registry.run fuel solver).run (r.erase s)).1 =
          ((Registry.run fuel solver).run r).1) ∧
        Alike s ((Registry.run fuel solver).run r).2 ((Registry.run fuel solver).run (r.erase s)).2
      rw [run_run, run_run, copied_erase, discard_eq_erase, discard_eq_erase, erase_comm]
      cases r.copied solver with
      | error cause => exact ⟨fun _ => rfl, .inr rfl⟩
      | ok job =>
          obtain ⟨hanswer, hafter⟩ := complete_erase (r.erase solver) s
            ⟨job.solver, job.revision, (job.result fuel).outcome⟩
          refine ⟨fun _ => ?_, hafter⟩
          simp only [hanswer]
  | look query =>
      refine ⟨fun hquery => ?_, .inr rfl⟩
      have hask := ask_erase r s fun arc heq => hquery arc (congrArg Request.look heq)
      exact congrArg Logged.ofExcept hask

theorem Alike.performAll (halike : Alike s r r') (requests : List Request) :
    Alike s (r.afterAll requests) (r'.afterAll requests) := by
  induction requests generalizing r r' with
  | nil => exact halike
  | cons request requests ih => exact ih halike.perform.2

/-- The registry after a request is exactly as it was, except that a run that was to begin, of a
solver that is alive, has dropped the last result of that solver. Whatever is asked for later is
answered as if the request had not been made, except that the flows of such a solver are gone. -/
structure Unnoticed (r : Registry) (request : Request) : Prop where
  after : Request.after r request = r ∨
    ∃ solver record, request.begins = some solver ∧ r.solver solver = .ok record ∧
      Request.after r request =
        { r with objects := r.objects.set solver (.solver { record with result := none }) }
  later : ∀ (later : List Request) (next : Request),
    (∀ solver arc, request.begins = some solver → next ≠ .look (.flow solver arc)) →
      next.answer ((Request.after r request).afterAll later) = next.answer (r.afterAll later)

/-- A request that is refused goes unnoticed, whatever handles, keys and values it names. -/
theorem refused_unnoticed (r : Registry) (request : Request) (fault : Fault)
    (hrefused : (request.answer r).outcome = .error fault) : Unnoticed r request := by
  cases hbegins : request.begins with
  | none =>
      have hafter : Request.after r request = r := by rw [after_of_refused hrefused, hbegins]
      refine ⟨.inl hafter, fun later next _ => ?_⟩
      rw [hafter]
  | some solver =>
      have hafter : Request.after r request = r.discard solver := by
        rw [after_of_refused hrefused, hbegins]
      refine ⟨?_, fun later next hnext => ?_⟩
      · rw [hafter]
        unfold discard
        cases hsolver : r.solver solver with
        | error cause => exact .inl rfl
        | ok record => exact .inr ⟨solver, record, hbegins, hsolver, rfl⟩
      · have halike : Alike solver r (r.discard solver) := .inr (discard_eq_erase r solver)
        rw [hafter]
        exact ((halike.performAll later).perform.1 fun arc => hnext solver arc hbegins :)

/-- A run is refused because its supplies were destroyed, after another one was optimal. -/
theorem refused_unnoticed_orphaned :
    ((Request.run Shipment.solver 20).answer (empty.afterAll Shipment.orphaned)).outcome =
        .error (.refused .unconfigured) ∧
      Unnoticed (empty.afterAll Shipment.orphaned) (.run Shipment.solver 20) := by
  have hrefused : ((Request.run Shipment.solver 20).answer
      (empty.afterAll Shipment.orphaned)).outcome = .error (.refused .unconfigured) :=
    error_of_match (by decide +kernel)
  exact ⟨hrefused, refused_unnoticed _ _ _ hrefused⟩

end Registry

end NetworkFlow
