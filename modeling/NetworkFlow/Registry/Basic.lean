import NetworkFlow.Registry.Job

/-!
# The registry

A `Registry` owns every object that was made through it until the object is
destroyed. All its calls take handles and may be refused: a handle may be dead or of
another kind, a key may belong to another graph. A call that changes something is an
`Action Registry`, so what it leaves behind when it is refused is part of its meaning.

A run of a solver copies what it needs (`snapshot`), works on the copy
(`RunJob.execute`), and brings back the result (`complete`), which is kept unless the
solver was reconfigured meanwhile.
-/

namespace NetworkFlow

/-- The objects by handle, and the identity of the next graph. -/
structure Registry where
  objects : HandleTable Object := .empty
  nextGraph : GraphId := ⟨1⟩

namespace Registry

/-- The registry without objects. -/
def empty : Registry := {}

/-! ## Objects -/

/-- How many objects are alive. -/
def size (r : Registry) : Nat := r.objects.size

/-- The object under a handle. -/
def object (r : Registry) (h : Handle) : Except Error Object := r.objects.get h

/-- The kind of an object. -/
def kind (r : Registry) (h : Handle) : Except Error ObjectKind := do
  return (← r.object h).kind

/-- Takes an object in. -/
def insert (object : Object) : Action Registry Handle := do
  let r ← get
  let (objects, h) := r.objects.insert object
  set { r with objects }
  Action.report (.constructed object.kind h)
  return h

/-- Replaces the object under a handle. -/
def replace (h : Handle) (object : Object) : Action Registry Unit :=
  modify fun r => { r with objects := r.objects.set h object }

/-- Destroys an object that must be of a given kind. -/
def destruct (h : Handle) (kind : ObjectKind) : Action Registry Unit := do
  let r ← get
  if (← r.kind h) ≠ kind then Action.refuse .kindMismatch
  let (objects, _) ← r.objects.remove h
  set { r with objects }
  Action.report (.destructed kind h)

/-- Destroys a single node or arc. -/
def deleteObject (h : Handle) : Action Registry Unit := do
  let r ← get
  match ← r.kind h with
  | .node => destruct h .node
  | .arc => destruct h .arc
  | _ => Action.refuse .kindMismatch

/-! ## Graphs -/

/-- The identity for a new graph. -/
def freshGraph : Action Registry GraphId := do
  let r ← get
  set { r with nextGraph := r.nextGraph.next }
  return r.nextGraph

/-- Makes a graph that grows. -/
def newListDigraph : Action Registry Handle := do
  let id ← freshGraph
  insert (.listDigraph (.empty id))

/-- Makes a graph that is yet to be built. -/
def newStaticDigraph : Action Registry Handle := do
  let id ← freshGraph
  insert (.staticDigraph (.empty id))

/-- The graph under a handle. -/
def graph (r : Registry) (h : Handle) : Except Error Digraph := do
  (← r.object h).graph?

/-- The number of nodes of a graph. -/
def nodeCount (r : Registry) (graph : Handle) : Except Error Nat := do
  return (← r.graph graph).nodeCount

/-- The number of arcs of a graph. -/
def arcCount (r : Registry) (graph : Handle) : Except Error Nat := do
  return (← r.graph graph).arcCount

/-- The node or arc of a graph that a caller names. -/
def resolve (r : Registry) (graph : Handle) (kind : KeyKind) (key : KeyRef) :
    Except Error (Key kind) := do
  let g ← r.graph graph
  match key with
  | .index i => g.key kind i
  | .handle h =>
      let key ← (← r.object h).key? kind
      let _ ← g.check key
      return key

/-- Adds a node to a graph. -/
def addNode (graph : Handle) : Action Registry Handle := do
  let r ← get
  let g ← (← r.object graph).listDigraph?
  let (g, node) := g.addNode
  replace graph (.listDigraph g)
  insert (.identity node)

/-- Adds an arc to a graph. -/
def addArc (graph : Handle) (tail head : KeyRef) : Action Registry Handle := do
  let r ← get
  let tail ← r.resolve graph .node tail
  let head ← r.resolve graph .node head
  let g ← (← r.object graph).listDigraph?
  let (g, arc) ← g.addArc tail head
  replace graph (.listDigraph g)
  insert (.identity arc)

/-- The number of a single node or arc. -/
def indexOf (r : Registry) (h : Handle) : Except Error Nat := do
  (← r.object h).index?

/-- Makes a list of pairs. -/
def newPairList : Action Registry Handle := insert (.pairList #[])

/-- Appends a pair to a list. -/
def pushPair (list : Handle) (first second : Int) : Action Registry Unit := do
  let r ← get
  let pairs ← (← r.object list).pairList?
  replace list (.pairList (pairs.push (first, second)))

/-- Builds a graph from a number of nodes and a list of pairs. -/
def buildStatic (graph : Handle) (nodes : Int) (pairs : Handle) : Action Registry Unit := do
  let r ← get
  let pairs ← (← r.object pairs).pairList?
  if nodes < 0 then Action.refuse .indexOutOfRange
  let g ← (← r.object graph).staticDigraph?
  let ends := pairs.map fun (tail, head) => ⟨indexOfSigned tail, indexOfSigned head⟩
  let g ← g.build nodes.toNat ends
  replace graph (.staticDigraph g)

/-! ## Maps -/

/-- Makes a map over the nodes or arcs of a graph. -/
def newMap (kind : KeyKind) (graph : Handle) (type : ValueType) : Action Registry Handle := do
  let r ← get
  let g ← r.graph graph
  insert (.map graph { type, map := KeyedMap.ofGraph g kind type.zero })

/-- The value of a key in a map. -/
def mapGet (r : Registry) (kind : KeyKind) (type : ValueType) (map : Handle) (key : KeyRef) :
    Except Error type.Value := do
  let (graph, values) ← (← r.object map).map? kind
  let typed ← values.ofType type
  typed.get (← r.resolve graph kind key)

/-- Gives a key in a map a value. -/
def mapSet (kind : KeyKind) (type : ValueType) (map : Handle) (key : KeyRef)
    (value : type.Value) : Action Registry Unit := do
  let r ← get
  let (graph, values) ← (← r.object map).map? kind
  let key ← r.resolve graph kind key
  let typed ← values.ofType type
  let typed ← typed.set key value
  replace map (.map graph { type, map := typed })

/-! ## Solvers -/

/-- The solver under a handle. -/
def solver (r : Registry) (h : Handle) : Except Error SolverRecord := do
  (← r.object h).solver?

/-- Makes a solver of a graph. Flows must be integers. -/
def newSolver (graph : Handle) (algorithm : Algorithm) (flowType costType : ValueType) :
    Action Registry Handle := do
  let r ← get
  let _ ← r.graph graph
  if flowType = .double then Action.refuse .kindMismatch
  insert (.solver { graph, algorithm, flowType, costType })

/-- Gives a solver a map. -/
def attach (solver : Handle) (role : MapRole) (map : Handle) : Action Registry Unit := do
  let r ← get
  let record ← r.solver solver
  let (owner, values) ← (← r.object map).map? role.keyKind
  if owner ≠ record.graph then Action.refuse .foreignIdentity
  if values.type ≠ record.expected role then Action.refuse .kindMismatch
  replace solver (.solver (record.attach role map))

/-- The graph of a solver, if it is still alive. -/
def solverGraph (r : Registry) (record : SolverRecord) : Except Error Digraph :=
  (r.graph record.graph).mapError fun _ => .unconfigured

/-- A map of a solver, if it is still alive. -/
def solverMap (r : Registry) (kind : KeyKind) :
    Option Handle → Except Error (Option (AnyMap kind))
  | none => .ok none
  | some map =>
      ((r.object map).bind (·.map? kind)).mapError (fun _ => .unconfigured)
        |>.map fun (_, values) => some values

/-- What a run of a solver needs, as it is now. -/
def jobOf (r : Registry) (solver : Handle) (record : SolverRecord) : Except Error RunJob := do
  let graph ← r.solverGraph record
  let cost ← r.solverMap .arc record.cost
  let lower ← r.solverMap .arc record.lower
  let upper ← r.solverMap .arc record.upper
  let supply ← r.solverMap .node record.supply
  return {
    solver := solver
    revision := record.revision
    algorithm := record.algorithm
    flowType := record.flowType
    costType := record.costType
    graph := graph
    cost := cost
    lower := lower
    upper := upper
    supply := supply }

/-- Copies what a run of a solver needs, and drops the result of its last run. -/
def snapshot (solver : Handle) : Action Registry RunJob := do
  let r ← get
  let record ← r.solver solver
  let record := { record with result := none }
  replace solver (.solver record)
  r.jobOf solver record

/-- Takes the result of a run, unless its solver was reconfigured meanwhile. -/
def complete (run : CompletedRun) : Action Registry Verdict := do
  let r ← get
  let record ← r.solver run.solver
  let result ← Action.ofLogged ⟨[], run.result⟩
  if record.revision = run.revision then
    replace run.solver (.solver { record with result := some result })
  else
    Action.report (.reconfigured run.solver)
  return result.verdict

/-- Solves with the maps that a solver has now. -/
def run (fuel : Nat) (solver : Handle) : Action Registry Verdict := do
  let job ← snapshot solver
  let done ← job.execute fuel
  complete done

/-- An arc of a solver's graph. A graph that is no longer alive is not the caller's
mistake of naming a dead handle. -/
def solverArc (r : Registry) (record : SolverRecord) (arc : KeyRef) : Except Error Arc :=
  (r.resolve record.graph .arc arc).mapError fun cause =>
    if cause = .invalidHandle ∧ !r.objects.contains record.graph then .unconfigured else cause

/-- The flow on an arc after an optimal run. -/
def flow (r : Registry) (solver : Handle) (arc : KeyRef) : Except Error Int := do
  let record ← r.solver solver
  let some result := record.result | throw .notSolved
  if result.verdict ≠ .optimal then throw .notSolved
  let arc ← r.solverArc record arc
  Solver.elementAt result.flows arc.index

end Registry

end NetworkFlow
