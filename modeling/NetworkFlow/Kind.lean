import NetworkFlow.Error

/-!
# Kinds of objects and types of values

What a registry needs to know of an object at run time: its kind, and for maps
and solvers the type of the values they hold. Both have identifiers; the value
types also have numbers on the flat surface.
-/

namespace NetworkFlow

/-- The type of the values of a map, of the flows or of the costs of a solver. -/
inductive ValueType where
  | int
  | long
  | double
  deriving DecidableEq, Repr

namespace ValueType

/-- The identifier of a value type. -/
def name : ValueType → String
  | int => "Int"
  | long => "Long"
  | double => "Double"

/-- All value types, in the order of their numbers on the flat surface. -/
def all : List ValueType := [int, long, double]

/-- The value type with a given identifier. -/
def ofName? (name : String) : Option ValueType :=
  all.find? (·.name = name)

theorem ofName?_name (t : ValueType) : ofName? t.name = some t := by
  cases t <;> decide

/-- The value type with a given number. -/
def ofCode (code : Int) : Except Error ValueType :=
  if code = 0 then .ok int
  else if code = 1 then .ok long
  else if code = 2 then .ok double
  else .error .kindMismatch

end ValueType

/-- The kinds of objects a registry holds. -/
inductive ObjectKind where
  | listDigraph
  | staticDigraph
  | pairList
  | node
  | arc
  | nodeMap
  | arcMap
  | solver
  deriving DecidableEq, Repr

namespace ObjectKind

/-- The identifier of a kind. -/
def name : ObjectKind → String
  | listDigraph => "ListDigraph"
  | staticDigraph => "StaticDigraph"
  | pairList => "PairList"
  | node => "Node"
  | arc => "Arc"
  | nodeMap => "NodeMap"
  | arcMap => "ArcMap"
  | solver => "Solver"

/-- All kinds. -/
def all : List ObjectKind :=
  [listDigraph, staticDigraph, pairList, node, arc, nodeMap, arcMap, solver]

/-- The kind with a given identifier. -/
def ofName? (name : String) : Option ObjectKind :=
  all.find? (·.name = name)

theorem ofName?_name (k : ObjectKind) : ofName? k.name = some k := by
  cases k <;> decide

end ObjectKind

end NetworkFlow
