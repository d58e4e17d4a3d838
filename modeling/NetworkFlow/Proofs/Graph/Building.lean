import Mathlib.Data.List.FinRange
import Mathlib.Data.List.Induction
import NetworkFlow.Proofs.Actions
import NetworkFlow.Proofs.Graph.HandedOut

/-!
# Building a static graph

A caller may ask a static graph to be built as often as it likes. What it is asked is a `Call`; the
first valid one is accepted, and all others are refused. So a graph is without nodes as long as no
call is valid, and from then on it is the one of the first valid call.

The arcs that a graph lists at a node are a slice of an array into which all arcs are sorted. They
are the numbers of the pairs with the node at one end, in increasing order.

## Main results

* `outArcs_ofDigraph`, `inArcs_ofDigraph`: what is listed at a node.
* `outcome_build`, `after_eq`: what a call is answered with, and what it makes of a graph.
* `built_made_iff`, `made_of_accepts`: what calls make of the graph without nodes.
* `built_once`: what a call is answered with after others, and what stays after it for ever.
-/

namespace NetworkFlow

/-! ## What is listed -/

namespace Digraph

/-- The arcs with a node at one end, in the order of their numbers. -/
def arcsAt (id : GraphId) (pairs : Array Ends) (side : Ends → Nat) (v : Nat) : List Arc :=
  ((List.range pairs.size).filter fun j => pairs[j]?.map side = some v).map (⟨id, ·⟩)

variable {id : GraphId} {pairs : Array Ends} {side : Ends → Nat} {v : Nat}

/-- Every pair with the node at that end has its number listed. -/
theorem mem_arcsAt {arc : Arc} :
    arc ∈ arcsAt id pairs side v ↔ arc.graph = id ∧ pairs[arc.index]?.map side = some v := by
  obtain ⟨graph, index⟩ := arc
  simp only [arcsAt, List.mem_map, List.mem_filter, List.mem_range, decide_eq_true_eq]
  constructor
  · rintro ⟨j, ⟨-, hside⟩, hkey⟩
    cases hkey
    exact ⟨rfl, hside⟩
  · rintro ⟨rfl, hside⟩
    obtain ⟨e, he, -⟩ := Option.map_eq_some_iff.mp hside
    exact ⟨index, ⟨(Array.getElem?_eq_some_iff.mp he).1, hside⟩, rfl⟩

/-- The numbers increase, so none is listed twice. -/
theorem pairwise_arcsAt : (arcsAt id pairs side v).Pairwise (·.index < ·.index) := by
  rw [arcsAt, List.pairwise_map]
  exact List.pairwise_lt_range.filter _

theorem getElem?_tail (d : Digraph) (a : Fin d.arcCount) :
    d.ends[a.val]?.map Ends.tail = some (d.tail a).val := by
  rw [Array.getElem?_eq_getElem a.isLt]
  rfl

theorem getElem?_head (d : Digraph) (a : Fin d.arcCount) :
    d.ends[a.val]?.map Ends.head = some (d.head a).val := by
  rw [Array.getElem?_eq_getElem a.isLt]
  rfl

/-- What is listed at a node, if it is the row of the node and all arcs are sorted into the rows. -/
theorem listed_eq {d : Digraph} {listed : Node → Except Error (List Arc)}
    (endOf : Fin d.arcCount → Fin d.nodeCount) (row : Fin d.nodeCount → List (Fin d.arcCount))
    (hend : ∀ a : Fin d.arcCount, d.ends[a.val]?.map side = some (endOf a).val)
    (hrow : ∀ v, row v = (List.finRange d.arcCount).filter fun a => endOf a = v)
    (hlisted : ∀ node, listed node = do
      let v : Fin d.nodeCount ← d.check node
      return (row v).map fun a : Fin d.arcCount => (⟨d.id, a.val⟩ : Arc)) (hv : v < d.nodeCount) :
    listed ⟨d.id, v⟩ = .ok (arcsAt d.id d.ends side v) := by
  have hcheck : (d.check (⟨d.id, v⟩ : Node) : Except Error (Fin d.nodeCount)) = .ok ⟨v, hv⟩ :=
    check_of_has ⟨rfl, hv⟩
  have hside : ∀ a : Fin d.arcCount,
      decide (endOf a = ⟨v, hv⟩) = decide (d.ends[a.val]?.map side = some v) := by
    intro a
    rw [hend, decide_eq_decide, Option.some_inj, Fin.ext_iff]
  have hrange : List.range d.ends.size = (List.finRange d.arcCount).map Fin.val :=
    List.map_coe_finRange_eq_range.symm
  have hkeys : (row ⟨v, hv⟩).map (fun a => (⟨d.id, a.val⟩ : Arc)) = arcsAt d.id d.ends side v := by
    rw [hrow, arcsAt, hrange, List.filter_map, List.map_map]
    congr 2
    funext a
    exact hside a
  rw [hlisted, ← hkeys]
  exact bind_eq_ok.mpr ⟨⟨v, hv⟩, hcheck, rfl⟩

/-- The end points that are answered for an arc. -/
theorem source_target_of_lt (d : Digraph) {j : Nat} (hj : j < d.ends.size) :
    d.source ⟨d.id, j⟩ = .ok ⟨d.id, d.ends[j].tail⟩ ∧
      d.target ⟨d.id, j⟩ = .ok ⟨d.id, d.ends[j].head⟩ := by
  have hcheck : d.check (⟨d.id, j⟩ : Arc) = .ok ⟨j, hj⟩ := check_of_has ⟨rfl, hj⟩
  exact ⟨bind_eq_ok.mpr ⟨_, hcheck, rfl⟩, bind_eq_ok.mpr ⟨_, hcheck, rfl⟩⟩

end Digraph

namespace StaticDigraph

variable {id : GraphId} {v : Nat}

/-- The arcs listed as leaving a node. -/
theorem outArcs_ofDigraph (d : Digraph) (built : Bool) (hv : v < d.nodeCount) :
    (ofDigraph d built).outArcs ⟨d.id, v⟩ = .ok (Digraph.arcsAt d.id d.ends Ends.tail v) :=
  Digraph.listed_eq d.tail _ d.getElem?_tail
    (fun v => Compressed.getElem_ofList d.tail (List.finRange d.arcCount) v) (fun _ => rfl) hv

/-- The arcs listed as entering a node. -/
theorem inArcs_ofDigraph (d : Digraph) (built : Bool) (hv : v < d.nodeCount) :
    (ofDigraph d built).inArcs ⟨d.id, v⟩ = .ok (Digraph.arcsAt d.id d.ends Ends.head v) :=
  Digraph.listed_eq d.head _ d.getElem?_head
    (fun v => Compressed.getElem_ofList d.head (List.finRange d.arcCount) v) (fun _ => rfl) hv

/-! ## Calls -/

/-- What a graph is asked to be built from. -/
structure Call where
  nodes : Nat
  pairs : Array Ends

namespace Call

/-- The counts are within the limit, and all pairs are pairs of nodes. -/
structure Valid (call : Call) : Prop where
  nodes_le : call.nodes ≤ countLimit
  size_le : call.pairs.size ≤ countLimit
  below : ∀ e ∈ call.pairs, e.Below call.nodes

/-- Builds a graph in place. -/
def action (call : Call) : Action StaticDigraph Unit := do
  let g ← get
  let g ← g.build call.nodes call.pairs
  set g

/-- What a graph answers. -/
def answer (call : Call) (g : StaticDigraph) : Except Fault Unit := (call.action.run g).1.outcome

/-- What a call makes of a graph. -/
def after (g : StaticDigraph) (call : Call) : StaticDigraph := (call.action.run g).2

variable {call : Call} {g : StaticDigraph}

/-- The first call of all is accepted if it is valid. -/
theorem outcome_build_of_valid (hbuilt : g.built = false) (h : call.Valid) :
    (g.build call.nodes call.pairs).outcome =
      .ok (.ofDigraph { id := g.id, nodeCount := call.nodes, ends := call.pairs, below := h.below }
        true) := by
  unfold build
  rw [if_neg (by simp [hbuilt]), if_neg (Nat.not_lt.mpr h.nodes_le), dif_pos h.below,
    if_neg (Nat.not_lt.mpr h.size_le)]
  rfl

/-- All others are refused. -/
theorem outcome_build_of_not (h : ¬ (g.built = false ∧ call.Valid)) :
    (g.build call.nodes call.pairs).outcome =
      .error (.refused (if g.built then .alreadyBuilt else .indexOutOfRange)) := by
  unfold build
  split
  · rfl
  · rename_i hbuilt
    have hbuilt : g.built = false := by simpa using hbuilt
    split
    · rfl
    · rename_i hnodes
      split
      · rename_i hbelow
        split
        · rfl
        · rename_i hsize
          exact absurd ⟨hbuilt, Nat.not_lt.mp hnodes, Nat.not_lt.mp hsize, hbelow⟩ h
      · rfl

theorem run_action : call.action.run g = match g.build call.nodes call.pairs with
    | ⟨events, .ok g'⟩ => (⟨events, .ok ()⟩, g')
    | ⟨events, .error fault⟩ => (⟨events, .error fault⟩, g) := by
  unfold action
  rw [Action.run_get_bind]
  show (Action.ofLogged _ >>= _ : Action StaticDigraph Unit).run g = _
  rw [Action.run_bind, Action.run_ofLogged]
  obtain ⟨events, fault | g'⟩ := g.build call.nodes call.pairs
  · rfl
  · simp

/-- A valid call builds a graph that is not built. -/
theorem accepted (hbuilt : g.built = false) (h : call.Valid) : call.answer g = .ok () ∧
    after g call = .ofDigraph
      { id := g.id, nodeCount := call.nodes, ends := call.pairs, below := h.below } true := by
  have hbuild : g.build call.nodes call.pairs = ⟨_, _⟩ :=
    congrArg (Logged.mk _) (outcome_build_of_valid hbuilt h)
  unfold answer after
  rw [run_action, hbuild]
  exact ⟨rfl, rfl⟩

/-- Any other call leaves the graph as it is. -/
theorem refused (h : ¬ (g.built = false ∧ call.Valid)) :
    call.answer g = .error (.refused (if g.built then .alreadyBuilt else .indexOutOfRange)) ∧
      after g call = g := by
  have hbuild : g.build call.nodes call.pairs = ⟨_, _⟩ :=
    congrArg (Logged.mk _) (outcome_build_of_not h)
  unfold answer after
  rw [run_action, hbuild]
  exact ⟨rfl, rfl⟩

theorem answer_eq_ok : call.answer g = .ok () ↔ g.built = false ∧ call.Valid := by
  constructor
  · intro hanswer
    by_contra h
    rw [(refused h).1] at hanswer
    cases hanswer
  · exact fun ⟨hbuilt, h⟩ => (accepted hbuilt h).1

end Call

/-! ## Histories of calls -/

/-- The graph without nodes after calls. -/
def made (id : GraphId) (calls : List Call) : StaticDigraph := calls.foldl Call.after (empty id)

/-- After some calls, another one is accepted. -/
def Accepts (id : GraphId) (calls : List Call) (call : Call) : Prop :=
  call.answer (made id calls) = .ok ()

variable {calls : List Call} {call : Call}

theorem made_append (rest : List Call) :
    made id (calls ++ rest) = rest.foldl Call.after (made id calls) := List.foldl_append

/-- Calls do not change the identity. -/
theorem id_made : (made id calls).id = id := by
  induction calls using List.reverseRecOn with
  | nil => rfl
  | append_singleton calls call ih =>
      rw [made_append]
      show (Call.after (made id calls) call).id = id
      by_cases h : (made id calls).built = false ∧ call.Valid
      · rw [(Call.accepted h.1 h.2).2]
        exact ih
      · rw [(Call.refused h).2]
        exact ih

/-- A graph that is built stays as it is. -/
theorem foldl_after_of_built {g : StaticDigraph} (h : g.built = true) (rest : List Call) :
    rest.foldl Call.after g = g := by
  induction rest with
  | nil => rfl
  | cons call rest ih =>
      rw [List.foldl_cons, (Call.refused (by simp [h])).2]
      exact ih

/-- The graph of an accepted call stays for ever. -/
theorem made_of_accepts (h : Accepts id calls call) (rest : List Call) :
    ∃ hbelow, made id (calls ++ call :: rest) = .ofDigraph
      { id := id, nodeCount := call.nodes, ends := call.pairs, below := hbelow } true := by
  obtain ⟨hbuilt, hvalid⟩ := Call.answer_eq_ok.mp h
  obtain ⟨-, hafter⟩ := Call.accepted hbuilt hvalid
  refine ⟨hvalid.below, ?_⟩
  rw [made_append, List.foldl_cons, hafter, foldl_after_of_built rfl]
  congr 2
  exact id_made

/-- A graph is built exactly if one of the calls has been accepted. -/
theorem built_made_iff : (made id calls).built = true ↔
    ∃ before earlier rest, calls = before ++ earlier :: rest ∧ Accepts id before earlier := by
  constructor
  · intro hbuilt
    induction calls using List.reverseRecOn with
    | nil => cases hbuilt
    | append_singleton calls last ih =>
        by_cases haccepts : Accepts id calls last
        · exact ⟨calls, last, [], rfl, haccepts⟩
        · have hrefused := Call.refused fun h => haccepts (Call.answer_eq_ok.mpr h)
          rw [made_append, List.foldl_cons, List.foldl_nil, hrefused.2] at hbuilt
          obtain ⟨before, earlier, rest, rfl, hearlier⟩ := ih hbuilt
          exact ⟨before, earlier, rest ++ [last], by simp, hearlier⟩
  · rintro ⟨before, earlier, rest, rfl, hearlier⟩
    obtain ⟨hbelow, hmade⟩ := made_of_accepts hearlier rest
    rw [hmade]
    rfl

/-- What a graph that is built from a call has and lists. -/
structure BuiltFrom (g : StaticDigraph) (id : GraphId) (call : Call) : Prop where
  built : g.built = true
  id_eq : g.id = id
  nodeCount_eq : g.nodeCount = call.nodes
  ends_eq : g.ends = call.pairs
  source_eq : ∀ (j : Nat) (hj : j < call.pairs.size), g.source ⟨id, j⟩ = .ok ⟨id, call.pairs[j].tail⟩
  target_eq : ∀ (j : Nat) (hj : j < call.pairs.size), g.target ⟨id, j⟩ = .ok ⟨id, call.pairs[j].head⟩
  outArcs_eq : ∀ v < call.nodes, g.outArcs ⟨id, v⟩ = .ok (Digraph.arcsAt id call.pairs Ends.tail v)
  inArcs_eq : ∀ v < call.nodes, g.inArcs ⟨id, v⟩ = .ok (Digraph.arcsAt id call.pairs Ends.head v)

/-- After whatever calls to build it, call a graph to be built from a number of nodes and pairs.

* The call is accepted exactly if no earlier one has been, the numbers of nodes and of pairs are
  within the limit and all pairs are pairs of nodes. Otherwise it is refused, because the graph is
  built already or else because a number is out of range, and leaves the graph as it is.
* Once it is accepted, the arcs are the pairs, and at each node the numbers of the pairs with the
  node at one end are listed in increasing order, after whatever other calls. -/
theorem built_once (id : GraphId) (calls : List Call) (call : Call) :
    (Accepts id calls call ↔
      (∀ before earlier rest, calls = before ++ earlier :: rest → ¬ Accepts id before earlier) ∧
        call.Valid) ∧
    (¬ Accepts id calls call →
      call.answer (made id calls) = .error (.refused
        (if (made id calls).built then .alreadyBuilt else .indexOutOfRange)) ∧
      made id (calls ++ [call]) = made id calls) ∧
    (Accepts id calls call → ∀ rest, (made id (calls ++ call :: rest)).BuiltFrom id call) := by
  refine ⟨?_, fun h => ?_, fun h rest => ?_⟩
  · have hbuilt : (made id calls).built = false ↔
        ∀ before earlier rest, calls = before ++ earlier :: rest → ¬ Accepts id before earlier := by
      rw [← Bool.not_eq_true, built_made_iff]
      simp only [not_exists, not_and]
    rw [← hbuilt]
    exact Call.answer_eq_ok
  · obtain ⟨hanswer, hafter⟩ := Call.refused fun hvalid => h (Call.answer_eq_ok.mpr hvalid)
    exact ⟨hanswer, (made_append [call]).trans hafter⟩
  · obtain ⟨hbelow, hmade⟩ := made_of_accepts h rest
    rw [hmade]
    exact ⟨rfl, rfl, rfl, rfl, fun j hj => (Digraph.source_target_of_lt _ hj).1,
      fun j hj => (Digraph.source_target_of_lt _ hj).2, fun v hv => outArcs_ofDigraph _ true hv,
      fun v hv => inArcs_ofDigraph _ true hv⟩

/-- The first call is refused for its last pair, the third one because the second has been accepted. -/
example :
    ((made ⟨0⟩ [⟨2, #[⟨0, 1⟩, ⟨1, 2⟩]⟩, ⟨4, #[⟨0, 1⟩, ⟨1, 2⟩, ⟨0, 2⟩, ⟨0, 3⟩]⟩, ⟨5, #[]⟩]).outArcs
      ⟨⟨0⟩, 0⟩).map (·.map Key.index) = .ok [0, 2, 3] := by
  rfl

end StaticDigraph

end NetworkFlow
