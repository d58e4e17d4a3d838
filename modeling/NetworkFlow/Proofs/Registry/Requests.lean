import NetworkFlow.Proofs.Registry.Results

/-!
# Requests to a registry

Everything that a caller can ask of a registry is a `Request`: an edit, one of the two ends of a run,
a run in one call, or a query. A request has one way to be answered (`Request.action`), whatever
handles, keys and values it names, and leaves a registry behind also when it is refused. A registry
that a caller can come to is what requests leave of the empty one (`afterAll`).

## Main results

* `Edit.apply_eq`: an edit is made by its action.
* `run_snapshot`: a snapshot leaves the registry without the last result of its solver.
* `Query.ask_eq`: a query leaves the registry as it is.
-/

namespace NetworkFlow

namespace Registry

/-- How an edit is made and what it answers, if that is a handle. -/
def Edit.action : Edit → Action Registry (Option Handle)
  | destruct h kind => (fun _ => none) <$> Registry.destruct h kind
  | deleteObject h => (fun _ => none) <$> Registry.deleteObject h
  | newListDigraph => some <$> Registry.newListDigraph
  | newStaticDigraph => some <$> Registry.newStaticDigraph
  | addNode graph => some <$> Registry.addNode graph
  | addArc graph tail head => some <$> Registry.addArc graph tail head
  | newPairList => some <$> Registry.newPairList
  | pushPair list first second => (fun _ => none) <$> Registry.pushPair list first second
  | buildStatic graph nodes pairs => (fun _ => none) <$> Registry.buildStatic graph nodes pairs
  | newMap kind graph type => some <$> Registry.newMap kind graph type
  | mapSet kind type map key value => (fun _ => none) <$> Registry.mapSet kind type map key value
  | newSolver graph algorithm flowType costType =>
      some <$> Registry.newSolver graph algorithm flowType costType
  | attach solver role map => (fun _ => none) <$> Registry.attach solver role map

theorem Edit.apply_eq (edit : Edit) (r : Registry) : edit.apply r = (edit.action.run r).2 := by
  cases edit <;> exact (Action.run_map_snd _ _ r).symm

/-- A question about what a registry holds. -/
inductive Query where
  | size
  | kind (h : Handle)
  | nodeCount (graph : Handle)
  | arcCount (graph : Handle)
  | indexOf (h : Handle)
  | mapGet (kind : KeyKind) (type : ValueType) (map : Handle) (key : KeyRef)
  | flow (solver : Handle) (arc : KeyRef)

namespace Query

/-- What a query is answered with. -/
@[reducible] def Answer : Query → Type
  | size | nodeCount _ | arcCount _ | indexOf _ => Nat
  | kind _ => ObjectKind
  | mapGet _ type _ _ => type.Value
  | flow _ _ => Int

/-- The answer to a query. -/
def ask (r : Registry) : (query : Query) → Except Error query.Answer
  | size => .ok r.size
  | kind h => r.kind h
  | nodeCount graph => r.nodeCount graph
  | arcCount graph => r.arcCount graph
  | indexOf h => r.indexOf h
  | mapGet keys type map key => r.mapGet keys type map key
  | flow solver arc => r.flow solver arc

end Query

/-- What a caller can ask of a registry. -/
inductive Request where
  | edit (edit : Edit)
  | snapshot (solver : Handle)
  | complete (run : CompletedRun)
  | run (solver : Handle) (fuel : Nat)
  | look (query : Query)

namespace Request

/-- What a request is answered with. -/
@[reducible] def Answer : Request → Type
  | edit _ => Option Handle
  | snapshot _ => RunJob
  | complete _ | run _ _ => Verdict
  | look query => query.Answer

/-- How a request is answered. -/
def action : (request : Request) → Action Registry request.Answer
  | edit e => e.action
  | snapshot solver => Registry.snapshot solver
  | complete done => Registry.complete done
  | run solver fuel => Registry.run fuel solver
  | look query => do
      let r ← get
      query.ask r

/-- The answer to a request, with what is reported. -/
def answer (request : Request) (r : Registry) : Logged request.Answer := (request.action.run r).1

/-- The registry after a request. -/
def after (r : Registry) (request : Request) : Registry := (request.action.run r).2

/-- The request is not refused. -/
def Accepted (request : Request) (r : Registry) : Prop := ∃ a, (request.answer r).outcome = .ok a

/-- The solver of which a request begins a run. -/
def begins : Request → Option Handle
  | snapshot solver | run solver _ => some solver
  | _ => none

end Request

/-- The registry after requests, made one after the other. -/
def afterAll (r : Registry) (requests : List Request) : Registry := requests.foldl Request.after r

/-- The registry without the last result of a solver, if there is one. -/
def discard (r : Registry) (solver : Handle) : Registry :=
  match r.solver solver with
  | .ok record => { r with objects := r.objects.set solver (.solver { record with result := none }) }
  | .error _ => r

theorem afterAll_append (r : Registry) (requests requests' : List Request) :
    r.afterAll (requests ++ requests') = (r.afterAll requests).afterAll requests' :=
  List.foldl_append

theorem after_look (r : Registry) (query : Query) : Request.after r (.look query) = r := rfl

theorem after_edit (r : Registry) (edit : Edit) : Request.after r (.edit edit) = edit.apply r :=
  (edit.apply_eq r).symm

/-- What a snapshot copies, if it copies anything. -/
def copied (r : Registry) (solver : Handle) : Except Error RunJob := do
  r.jobOf solver { ← r.solver solver with result := none }

/-- A snapshot leaves the registry without the last result of its solver, also if it is refused. -/
theorem run_snapshot (r : Registry) (solver : Handle) :
    (snapshot solver).run r = (.ofExcept (r.copied solver), r.discard solver) := by
  unfold copied discard
  cases hsolver : r.solver solver with
  | error cause => exact run_snapshot_of_error hsolver
  | ok record => exact run_snapshot_of_ok hsolver

/-- A run of a solver begins with a snapshot, and if that is not refused ends with completing it. -/
theorem run_run (r : Registry) (solver : Handle) (fuel : Nat) :
    (run fuel solver).run r = match r.copied solver with
      | .error cause => (⟨[], .error (.refused cause)⟩, r.discard solver)
      | .ok job =>
          let done := (complete ⟨job.solver, job.revision, (job.result fuel).outcome⟩).run
            (r.discard solver)
          (⟨(job.result fuel).events ++ done.1.events, done.1.outcome⟩, done.2) := by
  show ((snapshot solver >>= fun job => (liftM (job.execute fuel) >>= fun done => complete done :
    Action Registry Verdict)) : Action Registry Verdict).run r = _
  rw [Action.run_bind, run_snapshot]
  cases r.copied solver <;> rfl

/-- How a run is completed. -/
theorem run_complete (r : Registry) (done : CompletedRun) :
    (complete done).run r = match r.solver done.solver, done.result with
      | .error cause, _ => (⟨[], .error (.refused cause)⟩, r)
      | .ok _, .error fault => (⟨[], .error fault⟩, r)
      | .ok record, .ok result =>
          if record.revision = done.revision then
            (⟨[], .ok result.verdict⟩, { r with
              objects := r.objects.set done.solver (.solver { record with result := some result }) })
          else (⟨[.reconfigured done.solver], .ok result.verdict⟩, r) := by
  unfold complete
  rw [Action.run_get_bind]
  cases r.solver done.solver with
  | error cause => rfl
  | ok record =>
      rw [Action.run_ok_bind, Action.run_bind]
      cases done.result with
      | error fault => rfl
      | ok result =>
          simp only [Action.run_ofLogged]
          split_ifs <;> rfl

/-! ## Requests of a small problem -/

namespace Shipment

/-- A graph of two nodes and an arc. -/
def graph : Handle := ⟨0, 1⟩

/-- The list that the graph is built from. -/
def pairs : Handle := ⟨1, 1⟩

/-- A map over the nodes of the graph. -/
def supplies : Handle := ⟨2, 1⟩

/-- A solver of the graph. -/
def solver : Handle := ⟨3, 1⟩

/-- The supply of a node. -/
def supply (node : Nat) (amount : Int) : Request :=
  .edit (.mapSet .node .long supplies (.index node) (Word.clamp amount : Word .bits64))

/-- A solver is asked for an amount that leaves the first node and enters the second one. -/
def order (amount : Int) : List Request :=
  [.edit .newStaticDigraph, .edit .newPairList, .edit (.pushPair pairs 0 1),
    .edit (.buildStatic graph 2 pairs), .edit (.newMap .node graph .long),
    .edit (.newSolver graph .capacityScaling .long .long), .edit (.attach solver .supply supplies),
    supply 0 amount, supply 1 (-amount)]

/-- The solver is run, and then the supplies are destroyed. -/
def orphaned : List Request :=
  order 2 ++ [.run solver 20, .edit (.destruct supplies .nodeMap)]

/-- The value of an arc in a map over the arcs. -/
def bound (type : ValueType) (map : Handle) (arc : Nat) (x : type.Value) : Request :=
  .edit (.mapSet .arc type map (.index arc) x)

/-- Two arcs make a cycle, and the one with a negative cost has a lower bound near the end of the
range. The other one may carry ten units, and has no cost. -/
def brimming : List Request :=
  [.edit .newStaticDigraph, .edit .newPairList, .edit (.pushPair pairs 0 1),
    .edit (.pushPair pairs 1 0), .edit (.buildStatic graph 2 pairs),
    .edit (.newMap .node graph .long), supply 0 9223372036854775806,
    supply 1 (-9223372036854775806), .edit (.newSolver graph .capacityScaling .long .long),
    .edit (.attach solver .supply supplies)] ++
  [.edit (.newMap .arc graph .long), bound .long ⟨4, 1⟩ 0 (Word.clamp 9223372036854775806),
    .edit (.attach solver .lower ⟨4, 1⟩)] ++
  [.edit (.newMap .arc graph .long), bound .long ⟨5, 1⟩ 0 (Word.clamp 9223372036854775807),
    bound .long ⟨5, 1⟩ 1 (Word.clamp 10), .edit (.attach solver .upper ⟨5, 1⟩)] ++
  [.edit (.newMap .arc graph .long), bound .long ⟨6, 1⟩ 0 (Word.clamp (-1)),
    .edit (.attach solver .cost ⟨6, 1⟩)]

/-- A solver of the problem of `returns`. -/
def narrowSolver : Handle := ⟨4, 1⟩

/-- An arc without an upper bound has a negative cost, and two arcs lead back. What they carry
together is more than 32 bits hold, and so does the first arc. -/
def returns : List Request :=
  [.edit .newStaticDigraph, .edit .newPairList, .edit (.pushPair pairs 0 1),
    .edit (.pushPair pairs 1 0), .edit (.pushPair pairs 1 0), .edit (.buildStatic graph 2 pairs),
    .edit (.newMap .arc graph .int), bound .int ⟨2, 1⟩ 0 (Word.largest .bits32),
    bound .int ⟨2, 1⟩ 1 (Word.clamp 2000000000), bound .int ⟨2, 1⟩ 2 (Word.clamp 2000000000),
    .edit (.newMap .arc graph .int), bound .int ⟨3, 1⟩ 0 (Word.clamp (-1)),
    .edit (.newSolver graph .capacityScaling .int .int), .edit (.attach narrowSolver .upper ⟨2, 1⟩),
    .edit (.attach narrowSolver .cost ⟨3, 1⟩)]

end Shipment

end Registry

end NetworkFlow
