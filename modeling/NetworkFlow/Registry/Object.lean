import NetworkFlow.Graph.ListDigraph
import NetworkFlow.Graph.StaticDigraph
import NetworkFlow.HandleTable
import NetworkFlow.Kind
import NetworkFlow.Solver

/-!
# Objects of a registry

A registry serves callers that cannot hold typed references. What they make are
`Object`s: graphs, lists of pairs, single nodes and arcs, maps and solvers. The type
of the values of a map is known only at run time (`AnyMap`), and a solver refers to
its graph and maps by handles, which may be dead by the time it runs.
-/

namespace NetworkFlow

namespace ValueType

/-- The values of a type. -/
@[reducible] def Value : ValueType → Type
  | int => Word .bits32
  | long => Word .bits64
  | double => Float

instance instCostValue : (t : ValueType) → Cost t.Value
  | int => inferInstanceAs (Cost (Word .bits32))
  | long => inferInstanceAs (Cost (Word .bits64))
  | double => inferInstanceAs (Cost Float)

/-- The value that maps of a type start with. -/
def zero (t : ValueType) : t.Value := (t.instCostValue).default

end ValueType

/-- A map whose type of values is known only at run time. -/
structure AnyMap (kind : KeyKind) where
  type : ValueType
  map : KeyedMap kind type.Value

namespace AnyMap

variable {kind : KeyKind}

/-- The map, if its values are of a given type. -/
def ofType (m : AnyMap kind) (t : ValueType) : Except Error (KeyedMap kind t.Value) :=
  if h : m.type = t then .ok (h ▸ m.map) else .error .kindMismatch

/-- The map, if its values are integers of a given width. -/
def ofWidth (m : AnyMap kind) : (w : Width) → Except Error (KeyedMap kind (Word w))
  | .bits32 => m.ofType .int
  | .bits64 => m.ofType .long
  | .bits128 => .error .kindMismatch

end AnyMap

/-- A node or arc as callers name it: by a handle or by its number. -/
inductive KeyRef where
  | handle (h : Handle)
  | index (i : Nat)
  deriving DecidableEq, Repr

/-- What a solver is told by a map. -/
inductive MapRole where
  | cost
  | lower
  | upper
  | supply
  deriving DecidableEq, Repr

namespace MapRole

/-- What the map of a role is over. -/
def keyKind : MapRole → KeyKind
  | supply => .node
  | _ => .arc

end MapRole

/-- The verdict of a run, with the flows if it is optimal. -/
structure RunResult where
  verdict : Verdict
  flows : Array Int

/-- A solver of a registry. -/
structure SolverRecord where
  graph : Handle
  algorithm : Algorithm
  flowType : ValueType
  costType : ValueType
  cost : Option Handle := none
  lower : Option Handle := none
  upper : Option Handle := none
  supply : Option Handle := none
  /-- How often the configuration changed. -/
  revision : Nat := 0
  result : Option RunResult := none

namespace SolverRecord

/-- The type of the values that a map of a role must have. -/
def expected (s : SolverRecord) : MapRole → ValueType
  | .cost => s.costType
  | _ => s.flowType

/-- Takes a map for a role, which drops the result of the last run. -/
def attach (s : SolverRecord) (role : MapRole) (map : Handle) : SolverRecord :=
  let s := { s with revision := s.revision + 1, result := none }
  match role with
  | .cost => { s with cost := some map }
  | .lower => { s with lower := some map }
  | .upper => { s with upper := some map }
  | .supply => { s with supply := some map }

end SolverRecord

/-- What a registry holds. -/
inductive Object where
  | listDigraph (g : ListDigraph)
  | staticDigraph (g : StaticDigraph)
  | pairList (pairs : Array (Int × Int))
  /-- A single node or arc. -/
  | identity {kind : KeyKind} (key : Key kind)
  /-- A map with the handle of the graph it was made for. -/
  | map {kind : KeyKind} (graph : Handle) (values : AnyMap kind)
  | solver (record : SolverRecord)

namespace Object

/-- The kind of an object. -/
def kind : Object → ObjectKind
  | listDigraph _ => .listDigraph
  | staticDigraph _ => .staticDigraph
  | pairList _ => .pairList
  | @identity .node _ => .node
  | @identity .arc _ => .arc
  | @map .node _ _ => .nodeMap
  | @map .arc _ _ => .arcMap
  | solver _ => .solver

/-- The graph that an object is. -/
def graph? : Object → Except Error Digraph
  | listDigraph g => .ok g.toDigraph
  | staticDigraph g => .ok g.toDigraph
  | _ => .error .kindMismatch

/-- The growing graph that an object is. -/
def listDigraph? : Object → Except Error ListDigraph
  | listDigraph g => .ok g
  | _ => .error .kindMismatch

/-- The graph built once that an object is. -/
def staticDigraph? : Object → Except Error StaticDigraph
  | staticDigraph g => .ok g
  | _ => .error .kindMismatch

/-- The list of pairs that an object is. -/
def pairList? : Object → Except Error (Array (Int × Int))
  | pairList pairs => .ok pairs
  | _ => .error .kindMismatch

/-- The node or arc that an object is. -/
def key? (kind : KeyKind) : Object → Except Error (Key kind)
  | @identity k key => if h : k = kind then .ok (h ▸ key) else .error .kindMismatch
  | _ => .error .kindMismatch

/-- The number of the node or arc that an object is. -/
def index? : Object → Except Error Nat
  | identity key => .ok key.index
  | _ => .error .kindMismatch

/-- The map that an object is, with the handle of its graph. -/
def map? (kind : KeyKind) : Object → Except Error (Handle × AnyMap kind)
  | @map k graph values => if h : k = kind then .ok (graph, h ▸ values) else .error .kindMismatch
  | _ => .error .kindMismatch

/-- The solver that an object is. -/
def solver? : Object → Except Error SolverRecord
  | solver record => .ok record
  | _ => .error .kindMismatch

end Object

end NetworkFlow
