import NetworkFlow.Flat.Operation
import NetworkFlow.Registry.Basic

/-!
# Performing calls of the flat surface

A call never fails towards its caller: a call for a handle answers zero, a call for a
status answers the negative code of the cause, a call for a value answers zero. Each
refusal is reported once, as a warning under the name of the operation.
-/

namespace NetworkFlow.Flat

/-- The code of a cause. -/
def code : Error → Int
  | .foreignIdentity => -1
  | .alreadyBuilt => -2
  | .indexOutOfRange => -3
  | .unconfigured => -4
  | .notSolved => -5
  | .invalidHandle => -6
  | .kindMismatch => -7
  | .arithmeticOverflow => -8
  | .algorithmSpecific _ => -9

/-- What a call answers. -/
inductive Reply where
  | handle (raw : UInt64)
  /-- A status or verdict. -/
  | status (code : Int)
  /-- The number of a node or arc. -/
  | number (index : Int)
  | value (type : ValueType) (x : type.Value)
  /-- An amount of flow. -/
  | amount (x : Int)
  | nothing

/-- Performs an action and answers in any case, with a warning if it is refused. -/
def answer {α : Type} (operation : String) (x : Action Registry α) (onValue : α → Reply)
    (onRefusal : Error → Reply) : Action Registry Reply :=
  x.conclude fun
    | .ok a => return onValue a
    | .error cause => do
        Action.report (.refused operation cause)
        return onRefusal cause

/-- The algorithm with a given code. -/
def algorithmOfCode (code : Int) : Except Error Algorithm :=
  if code = 0 then .ok .networkSimplex
  else if code = 1 then .ok .costScaling
  else if code = 2 then .ok .capacityScaling
  else .error .kindMismatch

/-- The action of looking something up. -/
def look {α : Type} (query : Registry → Except Error α) : Action Registry α := do
  let r ← get
  let a ← query r
  return a

/-- Makes a solver from codes. -/
def newSolver (graph : UInt64) (algorithm flowType costType : Int) : Action Registry Handle := do
  let algorithm ← algorithmOfCode algorithm
  let flowType ← ValueType.ofCode flowType
  let costType ← ValueType.ofCode costType
  Registry.newSolver (.ofRaw graph) algorithm flowType costType

/-- The number of a node or arc, if it fits 32 bits. -/
def smallIndex (r : Registry) (item : Handle) : Except Error Nat := do
  let index ← r.indexOf item
  if Width.bits32.Fits index then return index else throw .indexOutOfRange

/-- The reply to a call for a handle. -/
def handleReply (operation : String) (x : Action Registry Handle) : Action Registry Reply :=
  answer operation x (fun h => .handle h.toRaw) fun _ => .handle 0

/-- The reply to a call for a status. -/
def statusReply (operation : String) (x : Action Registry Unit) : Action Registry Reply :=
  answer operation x (fun _ => .status 0) fun cause => .status (code cause)

/-- The reply to a call that answers nothing. -/
def noReply (operation : String) (x : Action Registry Unit) : Action Registry Reply :=
  answer operation x (fun _ => .nothing) fun _ => .nothing

/-- Performs an operation on arguments. -/
def performOn (fuel : Nat) (op : Operation) (arguments : Arguments op.parameters) :
    Action Registry Reply :=
  match op, arguments with
  | .deleteObject, (object, ()) => noReply op.name (Registry.deleteObject (.ofRaw object))
  | .destruct destructor, (object, ()) =>
      noReply op.name (Registry.destruct (.ofRaw object) destructor.kind)
  | .newListDigraph, () => handleReply op.name Registry.newListDigraph
  | .addNode, (graph, ()) => handleReply op.name (Registry.addNode (.ofRaw graph))
  | .addArc, (graph, tail, head, ()) =>
      handleReply op.name
        (Registry.addArc (.ofRaw graph) (.handle (.ofRaw tail)) (.handle (.ofRaw head)))
  | .numberOf, (item, ()) =>
      answer op.name (look (smallIndex · (.ofRaw item))) (fun i => .number i) fun _ =>
        .number 0
  | .newStaticDigraph, () => handleReply op.name Registry.newStaticDigraph
  | .build, (graph, nodes, pairs, ()) =>
      statusReply op.name (Registry.buildStatic (.ofRaw graph) nodes.val (.ofRaw pairs))
  | .newPairList, () => handleReply op.name Registry.newPairList
  | .pushPair, (list, first, second, ()) =>
      statusReply op.name (Registry.pushPair (.ofRaw list) first.val second.val)
  | .newMap family, (graph, ()) =>
      handleReply op.name (Registry.newMap family.keys (.ofRaw graph) family.values)
  | .mapGet family, (map, key, ()) =>
      answer op.name
        (look (·.mapGet family.keys family.values (.ofRaw map) (family.graph.keyRef key)))
        (fun x => .value family.values x) fun _ => .value family.values family.values.zero
  | .mapSet family, (map, key, value, ()) =>
      statusReply op.name
        (Registry.mapSet family.keys family.values (.ofRaw map) (family.graph.keyRef key) value)
  | .newSolver _, (graph, algorithm, flowType, costType, ()) =>
      handleReply op.name (newSolver graph algorithm.val flowType.val costType.val)
  | .attach role, (solver, map, ()) =>
      statusReply op.name (Registry.attach (.ofRaw solver) role (.ofRaw map))
  | .run, (solver, ()) =>
      answer op.name (Registry.run fuel (.ofRaw solver)) (fun v => .status v.code) fun cause =>
        .status (code cause)
  | .flow family, (solver, arc, ()) =>
      answer op.name (look (·.flow (.ofRaw solver) (family.keyRef arc))) (fun x => .amount x)
        fun _ => .amount 0

/-- Performs a call. -/
def perform (fuel : Nat) (call : Call) : Action Registry Reply :=
  performOn fuel call.operation call.arguments

end NetworkFlow.Flat
