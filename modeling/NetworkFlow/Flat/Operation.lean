import NetworkFlow.Registry.Object

/-!
# Operations of the flat surface

The flat surface offers the registry to callers that exchange nothing but numbers:
handles are 64-bit numbers, where zero is never one, value types and algorithms are
codes. Nodes and arcs of growing graphs are named by handles, those of graphs built
once by signed 32-bit numbers.

An `Operation` has a name, under which it is offered and reported, and parameters; a
`Call` is an operation with arguments for its parameters.
-/

namespace NetworkFlow.Flat

/-! ## Parameters -/

/-- What a parameter takes. -/
inductive Parameter where
  | handle
  | value (type : ValueType)
  deriving DecidableEq, Repr

/-- The arguments that a parameter takes. -/
@[reducible] def Parameter.Value : Parameter → Type
  | handle => UInt64
  | value type => type.Value

/-- One argument for each of some parameters. -/
@[reducible] def Arguments : List Parameter → Type
  | [] => Unit
  | p :: rest => p.Value × Arguments rest

/-! ## Families of operations -/

/-- The two families of graph operations. -/
inductive GraphFamily where
  | list
  | static
  deriving DecidableEq, Repr

namespace GraphFamily

/-- How the names of a family's operations begin. -/
def stem : GraphFamily → String
  | list => "list_digraph"
  | static => "static_digraph"

/-- How nodes and arcs are named in a family. -/
@[reducible] def key : GraphFamily → Parameter
  | list => .handle
  | static => .value .int

/-- The node or arc that an argument names. -/
def keyRef : (f : GraphFamily) → f.key.Value → KeyRef
  | list, raw => .handle (Handle.ofRaw raw)
  | static, i => .index (indexOfSigned i.val)

end GraphFamily

/-- The operations on maps come in twelve families. -/
structure MapFamily where
  graph : GraphFamily
  keys : KeyKind
  values : ValueType
  deriving DecidableEq, Repr

namespace MapFamily

/-- All families. -/
def all : List MapFamily :=
  [GraphFamily.list, .static].flatMap fun graph =>
    [KeyKind.node, .arc].flatMap fun keys =>
      ValueType.all.map fun values => { graph, keys, values }

/-- The name of an operation of a family. -/
def operation (f : MapFamily) (verb : String) : String :=
  let keys := match f.keys with
    | .node => "node_map"
    | .arc => "arc_map"
  let values := match f.values with
    | .int => "int"
    | .long => "long"
    | .double => "double"
  f.graph.stem ++ "_" ++ keys ++ "_" ++ values ++ "_" ++ verb

/-- The kind of the maps of a family. -/
def objectKind (f : MapFamily) : ObjectKind :=
  match f.keys with
  | .node => .nodeMap
  | .arc => .arcMap

end MapFamily

/-- The operations that destroy one object of a fixed kind. -/
inductive Destructor where
  | listDigraph
  | staticDigraph
  | pairList
  | solver
  | map (family : MapFamily)
  deriving DecidableEq, Repr

namespace Destructor

/-- The kind that a destructor destroys. -/
def kind : Destructor → ObjectKind
  | listDigraph => .listDigraph
  | staticDigraph => .staticDigraph
  | pairList => .pairList
  | solver => .solver
  | map family => family.objectKind

/-- The name of a destructor. -/
def name : Destructor → String
  | listDigraph => "list_digraph_destruct"
  | staticDigraph => "static_digraph_destruct"
  | pairList => "pair_list_destruct"
  | solver => "min_cost_flow_destruct"
  | map family => family.operation "destruct"

end Destructor

/-! ## Operations -/

/-- The operations of the flat surface. -/
inductive Operation where
  | deleteObject
  | destruct (destructor : Destructor)
  | newListDigraph
  | addNode
  | addArc
  /-- Asks for the number of a node or arc. -/
  | numberOf
  | newStaticDigraph
  | build
  | newPairList
  | pushPair
  | newMap (family : MapFamily)
  | mapGet (family : MapFamily)
  | mapSet (family : MapFamily)
  | newSolver (family : GraphFamily)
  /-- Gives a solver a map. -/
  | attach (role : MapRole)
  | run
  | flow (family : GraphFamily)
  deriving DecidableEq, Repr

namespace Operation

/-- The name under which an operation is offered and reported. -/
def name : Operation → String
  | deleteObject => "delete_object"
  | destruct destructor => destructor.name
  | newListDigraph => "list_digraph_construct"
  | addNode => "list_digraph_add_node"
  | addArc => "list_digraph_add_arc"
  | numberOf => "list_digraph_id"
  | newStaticDigraph => "static_digraph_construct"
  | build => "static_digraph_build"
  | newPairList => "pair_list_construct"
  | pushPair => "pair_list_push_back"
  | newMap family => family.operation "construct"
  | mapGet family => family.operation "get"
  | mapSet family => family.operation "set"
  | newSolver family => family.stem ++ "_min_cost_flow_construct"
  | attach .cost => "min_cost_flow_set_cost_map"
  | attach .lower => "min_cost_flow_set_lower_map"
  | attach .upper => "min_cost_flow_set_upper_map"
  | attach .supply => "min_cost_flow_set_supply_map"
  | run => "min_cost_flow_run"
  | flow family => family.stem ++ "_min_cost_flow_flow"

/-- What an operation takes. -/
@[reducible] def parameters : Operation → List Parameter
  | deleteObject => [.handle]
  | destruct _ => [.handle]
  | newListDigraph => []
  | addNode => [.handle]
  | addArc => [.handle, .handle, .handle]
  | numberOf => [.handle]
  | newStaticDigraph => []
  | build => [.handle, .value .int, .handle]
  | newPairList => []
  | pushPair => [.handle, .value .int, .value .int]
  | newMap _ => [.handle]
  | mapGet family => [.handle, family.graph.key]
  | mapSet family => [.handle, family.graph.key, .value family.values]
  | newSolver _ => [.handle, .value .int, .value .int, .value .int]
  | attach _ => [.handle, .handle]
  | run => [.handle]
  | flow family => [.handle, family.key]

/-- All operations. -/
def all : List Operation :=
  [deleteObject, newListDigraph, addNode, addArc, numberOf, newStaticDigraph, build,
    newPairList, pushPair, run] ++
  [Destructor.listDigraph, .staticDigraph, .pairList, .solver].map destruct ++
  [GraphFamily.list, .static].flatMap (fun family => [newSolver family, flow family]) ++
  [MapRole.cost, .lower, .upper, .supply].map attach ++
  MapFamily.all.flatMap fun family =>
    [newMap family, destruct (.map family), mapGet family, mapSet family]

/-- The operation with a given name. -/
def ofName? (name : String) : Option Operation :=
  all.find? (·.name = name)

end Operation

/-- An operation with its arguments. -/
structure Call where
  operation : Operation
  arguments : Arguments operation.parameters

end NetworkFlow.Flat
