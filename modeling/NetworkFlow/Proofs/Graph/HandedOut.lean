import NetworkFlow.Graph.ListDigraph
import NetworkFlow.Graph.StaticDigraph
import NetworkFlow.Proofs.Graph.Keys
import NetworkFlow.Proofs.Refusals

/-!
# Graphs that grow, and the keys they hand out

A graph of either kind changes in one way only: it is given more nodes and arcs, and what it has
stays as it is (`Digraph.Grows`). A list graph grows one element at a time, a static graph all at
once, when it is built. A call that is refused leaves the graph.

All keys that a graph hands out, to name what was added, by number, in an enumeration, as the end of
an arc or as an arc at a node, are keys that it has, and it has those it ever handed out for good.

## Main results

* `AnyGraph.grows_addNode`, `grows_addArc`, `grows_build`: every change lets a graph grow.
* `AnyGraph.handsOut_iff`: the keys that are handed out are the keys that the graph has.
* `Digraph.Has.grows`: they are never taken back.
-/

namespace NetworkFlow

namespace Digraph

variable {d g h : Digraph} {kind : KeyKind} {key : Key kind}

/-- The second graph has all that the first one has, under the same identity and numbers. -/
structure Grows (d g : Digraph) : Prop where
  id_eq : g.id = d.id
  nodeCount_le : d.nodeCount ≤ g.nodeCount
  ends_prefix : d.ends.toList <+: g.ends.toList

theorem Grows.refl (g : Digraph) : g.Grows g := ⟨rfl, Nat.le_refl _, List.prefix_rfl⟩

theorem Grows.trans (hd : d.Grows g) (hg : g.Grows h) : d.Grows h where
  id_eq := hg.id_eq.trans hd.id_eq
  nodeCount_le := Nat.le_trans hd.nodeCount_le hg.nodeCount_le
  ends_prefix := hd.ends_prefix.trans hg.ends_prefix

theorem Grows.count_le (h : d.Grows g) (kind : KeyKind) : d.count kind ≤ g.count kind := by
  cases kind with
  | node => exact h.nodeCount_le
  | arc => exact h.ends_prefix.length_le

/-- An arc keeps its ends. -/
theorem Grows.ends (h : d.Grows g) {a : Nat} (ha : a < d.arcCount) : g.ends[a]? = d.ends[a]? := by
  rw [← Array.getElem?_toList, ← Array.getElem?_toList]
  obtain ⟨more, hmore⟩ := h.ends_prefix
  rw [← hmore, List.getElem?_append_left ha]

/-- A graph keeps its keys. -/
theorem Has.grows (hkey : d.Has key) (h : d.Grows g) : g.Has key :=
  ⟨hkey.1.trans h.id_eq.symm, Nat.lt_of_lt_of_le hkey.2 (h.count_le kind)⟩

end Digraph

/-- What an arc makes of a graph that accepts it. -/
theorem ListDigraph.addArc_eq_ok {g g' : ListDigraph} {tail head : Node} {arc : Arc}
    (h : (g.addArc tail head).outcome = .ok (g', arc)) :
    ∃ t h, g' = g.addEnds t h ∧ arc = ⟨g.id, g.arcCount⟩ := by
  obtain ⟨t, -, h⟩ := Logged.outcome_bind_eq_ok.mp h
  obtain ⟨u, -, h⟩ := Logged.outcome_bind_eq_ok.mp h
  cases h
  exact ⟨t, u, rfl, rfl⟩

/-- What a graph is that has been built. -/
theorem StaticDigraph.build_eq_ok {g g' : StaticDigraph} {nodes : Nat} {pairs : Array Ends}
    (h : (g.build nodes pairs).outcome = .ok g') :
    g.built = false ∧ nodes ≤ countLimit ∧ pairs.size ≤ countLimit ∧ ∃ hbelow,
      g' = .ofDigraph { id := g.id, nodeCount := nodes, ends := pairs, below := hbelow } true := by
  unfold build at h
  split at h
  · cases h
  · rename_i hbuilt
    split at h
    · cases h
    · rename_i hnodes
      split at h
      · rename_i hbelow
        split at h
        · cases h
        · rename_i hsize
          cases h
          exact ⟨by simpa using hbuilt, Nat.not_lt.mp hnodes, Nat.not_lt.mp hsize, hbelow, rfl⟩
      · cases h

/-- A graph of one of the two kinds. -/
inductive AnyGraph where
  | list (g : ListDigraph)
  | static (g : StaticDigraph)

namespace AnyGraph

/-- The nodes and arcs of a graph. -/
def digraph : AnyGraph → Digraph
  | list g => g.toDigraph
  | static g => g.toDigraph

/-- The arcs that leave a node. -/
def outArcs : AnyGraph → Node → Except Error (List Arc)
  | list g => g.outArcs
  | static g => g.outArcs

/-- The arcs that enter a node. -/
def inArcs : AnyGraph → Node → Except Error (List Arc)
  | list g => g.inArcs
  | static g => g.inArcs

/-! ## Growth -/

/-- A graph with one more node, if it is one that can be given nodes. -/
def addNode : AnyGraph → AnyGraph
  | list g => list g.addNode.1
  | static g => static g

/-- A graph with one more arc; the graph itself if the arc is refused. -/
def addArc (tail head : Node) : AnyGraph → AnyGraph
  | list g => match (g.addArc tail head).outcome with
      | .ok (g', _) => list g'
      | .error _ => list g
  | static g => static g

/-- A static graph after it is built; the graph itself if it is refused to build it. -/
def build (nodes : Nat) (pairs : Array Ends) : AnyGraph → AnyGraph
  | list g => list g
  | static g => match (g.build nodes pairs).outcome with
      | .ok g' => static g'
      | .error _ => static g

/-- A static graph that is not built has nothing in it. -/
def Sound : AnyGraph → Prop
  | list _ => True
  | static g => g.built = false → g.nodeCount = 0 ∧ g.ends = #[]

variable {g : AnyGraph}

theorem grows_addNode (g : AnyGraph) : g.digraph.Grows g.addNode.digraph := by
  cases g with
  | list g => exact ⟨rfl, Nat.le_succ _, List.prefix_rfl⟩
  | static g => exact .refl _

theorem grows_addArc (g : AnyGraph) (tail head : Node) :
    g.digraph.Grows (g.addArc tail head).digraph := by
  cases g with
  | list g =>
      cases h : (g.addArc tail head).outcome with
      | error fault =>
          simp only [addArc, h]
          exact .refl _
      | ok result =>
          obtain ⟨g', arc⟩ := result
          obtain ⟨t, u, rfl, -⟩ := ListDigraph.addArc_eq_ok h
          simp only [addArc, h]
          refine ⟨rfl, Nat.le_refl _, ?_⟩
          show _ <+: (g.ends.push _).toList
          rw [Array.toList_push]
          exact List.prefix_append _ _
  | static g => exact .refl _

/-- A graph that is built was empty, so it grows as well. -/
theorem grows_build (hsound : g.Sound) (nodes : Nat) (pairs : Array Ends) :
    g.digraph.Grows (g.build nodes pairs).digraph := by
  cases g with
  | list g => exact .refl _
  | static g =>
      cases h : (g.build nodes pairs).outcome with
      | error fault =>
          simp only [build, h]
          exact .refl _
      | ok g' =>
          obtain ⟨hbuilt, -, -, hbelow, rfl⟩ := StaticDigraph.build_eq_ok h
          simp only [build, h]
          obtain ⟨hnodes, hends⟩ := hsound hbuilt
          refine ⟨rfl, ?_, ?_⟩
          · show g.nodeCount ≤ nodes
            omega
          · show g.ends.toList <+: pairs.toList
            rw [hends]
            exact List.nil_prefix

theorem Sound.addNode (h : g.Sound) : g.addNode.Sound := by
  cases g with
  | list g => trivial
  | static g => exact h

theorem Sound.addArc (h : g.Sound) (tail head : Node) : (g.addArc tail head).Sound := by
  cases g with
  | list g =>
      simp only [AnyGraph.addArc]
      split <;> trivial
  | static g => exact h

theorem Sound.build (h : g.Sound) (nodes : Nat) (pairs : Array Ends) :
    (g.build nodes pairs).Sound := by
  cases g with
  | list g => trivial
  | static g =>
      cases hbuild : (g.build nodes pairs).outcome with
      | error fault =>
          simp only [AnyGraph.build, hbuild]
          exact h
      | ok g' =>
          obtain ⟨-, -, -, hbelow, rfl⟩ := StaticDigraph.build_eq_ok hbuild
          simp only [AnyGraph.build, hbuild]
          intro hbuilt
          cases hbuilt

/-! ## Keys -/

/-- The ways in which a graph hands out a key. -/
inductive HandsOut (g : AnyGraph) : {kind : KeyKind} → Key kind → Prop
  /-- The node that was added last. -/
  | addedNode {g₀ : ListDigraph} (h : g = list g₀.addNode.1) : HandsOut g g₀.addNode.2
  /-- The arc that was added last. -/
  | addedArc {g₀ g' : ListDigraph} {tail head : Node} {arc : Arc}
      (h : (g₀.addArc tail head).outcome = .ok (g', arc)) (h' : g = list g') : HandsOut g arc
  | numbered {kind : KeyKind} {index : Nat} {key : Key kind}
      (h : g.digraph.key kind index = .ok key) : HandsOut g key
  | enumerated {kind : KeyKind} {key : Key kind} (h : key ∈ g.digraph.keys kind) : HandsOut g key
  | source {arc : Arc} {node : Node} (h : g.digraph.source arc = .ok node) : HandsOut g node
  | target {arc : Arc} {node : Node} (h : g.digraph.target arc = .ok node) : HandsOut g node
  | leaving {node : Node} {arcs : List Arc} {arc : Arc} (h : g.outArcs node = .ok arcs)
      (h' : arc ∈ arcs) : HandsOut g arc
  | entering {node : Node} {arcs : List Arc} {arc : Arc} (h : g.inArcs node = .ok arcs)
      (h' : arc ∈ arcs) : HandsOut g arc

/-- The arcs that are listed at a node are arcs of the graph. -/
theorem has_of_mem_row {d : Digraph} (row : Fin d.nodeCount → List (Fin d.arcCount)) {node : Node}
    {arcs : List Arc} {arc : Arc} (h : (do
      let v : Fin d.nodeCount ← d.check node
      return (row v).map fun a : Fin d.arcCount => (⟨d.id, a.val⟩ : Arc)) = .ok arcs)
    (harc : arc ∈ arcs) : d.Has arc := by
  obtain ⟨v, -, h⟩ := bind_eq_ok.mp h
  cases h
  obtain ⟨a, -, rfl⟩ := List.mem_map.mp harc
  exact ⟨rfl, a.isLt⟩

/-- A graph hands out the keys that it has, and no others. -/
theorem handsOut_iff {kind : KeyKind} {key : Key kind} : g.HandsOut key ↔ g.digraph.Has key := by
  constructor
  · intro h
    cases h with
    | addedNode h =>
        subst h
        exact ⟨rfl, Nat.lt_succ_self _⟩
    | addedArc h h' =>
        obtain ⟨t, u, rfl, rfl⟩ := ListDigraph.addArc_eq_ok h
        subst h'
        refine ⟨rfl, ?_⟩
        show _ < (Array.push _ _).size
        rw [Array.size_push]
        exact Nat.lt_succ_self _
    | numbered h => exact Digraph.has_of_key h
    | enumerated h => exact Digraph.mem_keys.mp h
    | source h =>
        obtain ⟨a, -, h⟩ := bind_eq_ok.mp h
        cases h
        exact ⟨rfl, (g.digraph.tail a).isLt⟩
    | target h =>
        obtain ⟨a, -, h⟩ := bind_eq_ok.mp h
        cases h
        exact ⟨rfl, (g.digraph.head a).isLt⟩
    | leaving h harc =>
        cases g with
        | list g => exact has_of_mem_row _ h harc
        | static g => exact has_of_mem_row (fun v : Fin g.nodeCount => g.outgoing[v].toList) h harc
    | entering h harc =>
        cases g with
        | list g => exact has_of_mem_row _ h harc
        | static g => exact has_of_mem_row (fun v : Fin g.nodeCount => g.incoming[v].toList) h harc
  · exact fun h => .enumerated (Digraph.mem_keys.mpr h)

end AnyGraph

end NetworkFlow
