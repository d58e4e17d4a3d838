import Mathlib.Logic.Function.Basic
import NetworkFlow.KeyedMap
import NetworkFlow.Proofs.Graph.HandedOut

/-!
# A map over a graph is a total function

A map is made for as many nodes or arcs as its graph has at that time. The graph may be given more
of them later, and keys may be set in whatever order, so the map is asked for numbers beyond its
end and has to fill the gaps that it leaves when it grows.

A `MapHistory` is a graph with a map over it, together with what they were asked since the map was
made and what the map answered. It says what each key was last set to (`written`). The map reads as
the total function that gives every key of the graph this value, or the fill value.

## Main results

* `Kept.step`: what every operation keeps.
* `map_acts_as_function`: a map reads as the total function that its history describes.
-/

namespace NetworkFlow

/-- The graph that is built, if any, has the identity of the one that it was asked of. -/
theorem AnyGraph.id_build (g : AnyGraph) (nodes : Nat) (pairs : Array Ends) :
    (g.build nodes pairs).digraph.id = g.digraph.id := by
  cases g with
  | list g => rfl
  | static g =>
      cases h : (g.build nodes pairs).outcome with
      | error fault => simp only [build, h]
      | ok g' =>
          obtain ⟨-, -, -, hbelow, rfl⟩ := StaticDigraph.build_eq_ok h
          simp only [build, h]
          rfl

/-- What a graph and a map over it are asked. -/
inductive MapOperation (kind : KeyKind) (α : Type) where
  | addNode
  | addArc (tail head : Node)
  | build (nodes : Nat) (pairs : Array Ends)
  | set (key : Key kind) (value : α)
  | get (key : Key kind)

/-- What the map answers; it has nothing to say when the graph changes. -/
inductive MapAnswer (α : Type) where
  | silent
  | set (result : Except Error Unit)
  | get (result : Except Error α)

/-- A graph and a map over its nodes or arcs, with the operations performed since the map was made
and what the map answered. -/
structure MapHistory (kind : KeyKind) (α : Type) where
  graph : AnyGraph
  map : KeyedMap kind α
  events : List (MapOperation kind α × MapAnswer α) := []

namespace MapHistory

variable {kind : KeyKind} {α : Type}

/-- What an operation makes of the graph. A refused one leaves it as it is. -/
def graphAfter (g : AnyGraph) : MapOperation kind α → AnyGraph
  | .addNode => g.addNode
  | .addArc tail head => g.addArc tail head
  | .build nodes pairs => g.build nodes pairs
  | _ => g

/-- What an operation makes of the map, and its answer. -/
def perform (map : KeyedMap kind α) : MapOperation kind α → KeyedMap kind α × MapAnswer α
  | .set key value =>
      match map.set key value with
      | .ok map' => (map', .set (.ok ()))
      | .error cause => (map, .set (.error cause))
  | .get key => (map, .get (map.get key))
  | _ => (map, .silent)

/-- One more operation. -/
def step (s : MapHistory kind α) (op : MapOperation kind α) : MapHistory kind α where
  graph := graphAfter s.graph op
  map := (perform s.map op).1
  events := s.events ++ [(op, (perform s.map op).2)]

/-- The history of operations performed after a map that reads as one value everywhere is made over
a graph. -/
def ofOperations (g : AnyGraph) (fill : α) (ops : List (MapOperation kind α)) :
    MapHistory kind α :=
  ops.foldl step { graph := g, map := .ofGraph g.digraph kind fill }

/-- What an operation writes, if it is answered that it has been done. -/
def write (written : Key kind → Option α) :
    MapOperation kind α × MapAnswer α → Key kind → Option α
  | (.set key value, .set (.ok ())) => Function.update written key (some value)
  | _ => written

/-- What each key was last set to with success. -/
def written (s : MapHistory kind α) : Key kind → Option α := s.events.foldl write fun _ => none

/-- The map reads as the total function that the history describes. -/
structure ActsAsFunction (s : MapHistory kind α) (fill : α) : Prop where
  /-- A key of the graph reads as what it was last set to, or else as the fill value. -/
  get : ∀ key : Key kind, s.map.get key =
    if key.graph = s.graph.digraph.id then .ok ((s.written key).getD fill)
    else .error .foreignIdentity
  /-- Every key of the graph can be set. -/
  set : ∀ (key : Key kind) (value : α), key.graph = s.graph.digraph.id →
    (perform s.map (.set key value)).2 = .set (.ok ())
  /-- A key of another graph is refused, and the map stays as it is. -/
  foreign : ∀ (key : Key kind) (value : α), key.graph ≠ s.graph.digraph.id →
    perform s.map (.set key value) = (s.map, .set (.error .foreignIdentity)) ∧
      perform s.map (.get key) = (s.map, .get (.error .foreignIdentity))
  /-- What is read at a number below the count is what is answered for the key with this number. -/
  valueAt : ∀ i < s.graph.digraph.count kind, ∃ key : Key kind,
    s.graph.digraph.key kind i = .ok key ∧ s.map.get key = .ok (s.map.valueAt i)

/-- The map is one over the graph, and reads at every number as the history says of the key with
this number. -/
structure Kept (s : MapHistory kind α) (fill : α) : Prop where
  identity : s.map.graph = s.graph.digraph.id
  valueAt : ∀ i, s.map.valueAt i = (s.written ⟨s.map.graph, i⟩).getD fill

variable {s : MapHistory kind α} {fill : α} {op : MapOperation kind α} {key : Key kind}

theorem written_step (s : MapHistory kind α) (op : MapOperation kind α) :
    (s.step op).written = write s.written (op, (perform s.map op).2) := by
  simp [written, step]

theorem id_graphAfter (g : AnyGraph) (op : MapOperation kind α) :
    (graphAfter g op).digraph.id = g.digraph.id := by
  cases op with
  | addNode => exact g.grows_addNode.id_eq
  | addArc tail head => exact (g.grows_addArc tail head).id_eq
  | build nodes pairs => exact g.id_build nodes pairs
  | set key value => rfl
  | get key => rfl

theorem perform_set_of_own (map : KeyedMap kind α) (value : α) (h : map.graph = key.graph) :
    perform map (.set key value) = (map.setAt key.index value, .set (.ok ())) := by
  simp only [perform, KeyedMap.set_of_graph h]

theorem perform_set_of_foreign (map : KeyedMap kind α) (value : α) (h : map.graph ≠ key.graph) :
    perform map (.set key value) = (map, .set (.error .foreignIdentity)) := by
  simp only [perform, KeyedMap.set, if_neg h.symm]

theorem kept_ofGraph (g : AnyGraph) (fill : α) :
    Kept { graph := g, map := .ofGraph g.digraph kind fill } fill where
  identity := rfl
  valueAt i := KeyedMap.valueAt_ofGraph g.digraph fill i

/-- An operation that leaves the map as it is and writes nothing keeps what is kept. -/
theorem Kept.unchanged (hs : s.Kept fill) (hmap : (perform s.map op).1 = s.map)
    (hwrite : write s.written (op, (perform s.map op).2) = s.written) : (s.step op).Kept fill := by
  have hmap' : (s.step op).map = s.map := hmap
  constructor
  · rw [hmap']
    exact hs.identity.trans (id_graphAfter s.graph op).symm
  · intro i
    rw [written_step, hwrite, hmap']
    exact hs.valueAt i

/-- A key that is set reads as its value from then on, and all others as before. -/
theorem Kept.set (hs : s.Kept fill) (key : Key kind) (value : α) :
    (s.step (.set key value)).Kept fill := by
  by_cases hown : s.map.graph = key.graph
  · have hperform := perform_set_of_own s.map value hown
    have hmap : (s.step (.set key value)).map = s.map.setAt key.index value :=
      congrArg Prod.fst hperform
    constructor
    · rw [hmap]
      exact hs.identity
    · intro i
      rw [written_step, hperform, hmap]
      show _ = (Function.update s.written key (some value) ⟨s.map.graph, i⟩).getD fill
      by_cases hi : key.index = i
      · rw [show (⟨s.map.graph, i⟩ : Key kind) = key by rw [hown, ← hi], ← hi,
          KeyedMap.valueAt_set_self, Function.update_self]
        rfl
      · have hne : (⟨s.map.graph, i⟩ : Key kind) ≠ key := fun h => hi (congrArg Key.index h).symm
        rw [KeyedMap.valueAt_set_of_ne _ _ hi, Function.update_of_ne hne]
        exact hs.valueAt i
  · have hperform := perform_set_of_foreign s.map value hown
    refine hs.unchanged (congrArg Prod.fst hperform) ?_
    rw [hperform]
    rfl

theorem Kept.step (hs : s.Kept fill) (op : MapOperation kind α) : (s.step op).Kept fill := by
  cases op with
  | set key value => exact hs.set key value
  | addNode => exact hs.unchanged rfl rfl
  | addArc tail head => exact hs.unchanged rfl rfl
  | build nodes pairs => exact hs.unchanged rfl rfl
  | get key => exact hs.unchanged rfl rfl

theorem kept_ofOperations (g : AnyGraph) (fill : α) (ops : List (MapOperation kind α)) :
    (ofOperations g fill ops).Kept fill :=
  List.foldlRecOn (motive := (·.Kept fill)) ops step (kept_ofGraph g fill)
    fun _ hs op _ => hs.step op

theorem Kept.get (hs : s.Kept fill) (key : Key kind) : s.map.get key =
    if key.graph = s.graph.digraph.id then .ok ((s.written key).getD fill)
    else .error .foreignIdentity := by
  unfold KeyedMap.get
  rw [hs.identity]
  split
  · rename_i hown
    rw [hs.valueAt, hs.identity, ← hown]
  · rfl

/-- A map that is made over a graph, at whatever stage, reads as the total function that gives every
key what it was last set to, or else the fill value, after whatever operations on both. -/
theorem map_acts_as_function (g : AnyGraph) (fill : α) (ops : List (MapOperation kind α)) :
    (ofOperations g fill ops).ActsAsFunction fill := by
  have hs := kept_ofOperations g fill ops
  generalize ofOperations g fill ops = s at hs
  constructor
  case get => exact hs.get
  case set =>
    intro key value hown
    rw [perform_set_of_own s.map value (hs.identity.trans hown.symm)]
  case foreign =>
    intro key value hforeign
    have hget := hs.get key
    rw [if_neg hforeign] at hget
    refine ⟨perform_set_of_foreign s.map value fun h => hforeign (h.symm.trans hs.identity), ?_⟩
    simp only [perform, hget]
  case valueAt =>
    intro i hi
    exact ⟨⟨s.graph.digraph.id, i⟩, if_pos hi, KeyedMap.get_of_graph hs.identity⟩

/-- A node that is added later is set before an earlier one, which reads as the fill value. -/
example : (ofOperations (.list (.empty ⟨0⟩)) (-1)
    [.addNode, .addNode, .addNode, .set ⟨⟨0⟩, 2⟩ 5, .set ⟨⟨1⟩, 1⟩ 4, .get ⟨⟨0⟩, 1⟩,
      .get ⟨⟨0⟩, 2⟩] : MapHistory .node Int).events.drop 4 =
    [(.set ⟨⟨1⟩, 1⟩ 4, .set (.error .foreignIdentity)), (.get ⟨⟨0⟩, 1⟩, .get (.ok (-1))),
      (.get ⟨⟨0⟩, 2⟩, .get (.ok 5))] := by
  rfl

end MapHistory

end NetworkFlow
