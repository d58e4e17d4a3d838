import NetworkFlow.Proofs.Graph.Building
import NetworkFlow.Proofs.Solver.Alike

/-!
# Graphs of the two kinds made of the same arcs

A number of nodes and a list of pairs make a graph in two ways: a list graph is given the nodes and
then the arcs, one at a time, and a static graph is built from all of them. Both have the nodes and
arcs that the list describes (`Describes`), and each of them lists at a node the arcs that leave or
enter it, every one once, from its own representation.

Solvers see no difference between them but that of the identities, and nothing depends on these.

## Main results

* `describes_list`, `describes_static`: what the two graphs have and list.
* `twins_solve_alike`: both graphs are made, and solvers of them answer the same.
-/

namespace NetworkFlow

namespace ListDigraph

/-- A graph with a number of nodes, added one at a time. -/
def ofNodes (id : GraphId) : Nat → ListDigraph
  | 0 => empty id
  | n + 1 => (ofNodes id n).addNode.1

/-- Adds arcs one at a time. -/
def addPairs (g : ListDigraph) (pairs : List Ends) : Logged ListDigraph :=
  pairs.foldlM (fun g e => do
    let (g', _) ← g.addArc ⟨g.id, e.tail⟩ ⟨g.id, e.head⟩
    return g') g

/-- A graph that is given nodes and then arcs. -/
def ofPairs (id : GraphId) (n : Nat) (pairs : Array Ends) : Logged ListDigraph :=
  (ofNodes id n).addPairs pairs.toList

theorem ofNodes_eq (id : GraphId) (n : Nat) :
    (ofNodes id n).id = id ∧ (ofNodes id n).nodeCount = n ∧ (ofNodes id n).ends = #[] := by
  induction n with
  | zero => exact ⟨rfl, rfl, rfl⟩
  | succ n ih => exact ⟨ih.1, congrArg (· + 1) ih.2.1, ih.2.2⟩

/-- An arc between nodes of the graph is added behind the others. -/
theorem outcome_addArc (g : ListDigraph) {e : Ends} (h : e.Below g.nodeCount) :
    (g.addArc ⟨g.id, e.tail⟩ ⟨g.id, e.head⟩).outcome =
      .ok (g.addEnds ⟨e.tail, h.1⟩ ⟨e.head, h.2⟩, ⟨g.id, g.arcCount⟩) := by
  have htail : g.check (⟨g.id, e.tail⟩ : Node) = .ok ⟨e.tail, h.1⟩ := Digraph.check_of_has ⟨rfl, h.1⟩
  have hhead : g.check (⟨g.id, e.head⟩ : Node) = .ok ⟨e.head, h.2⟩ := Digraph.check_of_has ⟨rfl, h.2⟩
  unfold addArc
  rw [htail, hhead]
  rfl

theorem exists_addPairs (g : ListDigraph) (pairs : List Ends)
    (h : ∀ e ∈ pairs, e.Below g.nodeCount) :
    ∃ g', (g.addPairs pairs).outcome = .ok g' ∧ g'.id = g.id ∧ g'.nodeCount = g.nodeCount ∧
      g'.ends.toList = g.ends.toList ++ pairs := by
  induction pairs generalizing g with
  | nil => exact ⟨g, rfl, rfl, rfl, (List.append_nil _).symm⟩
  | cons e pairs ih =>
      have he := h e (List.mem_cons_self ..)
      obtain ⟨g', hg', hid, hnodes, hends⟩ := ih (g.addEnds ⟨e.tail, he.1⟩ ⟨e.head, he.2⟩)
        fun e' he' => h e' (List.mem_cons_of_mem _ he')
      refine ⟨g', ?_, hid, hnodes, ?_⟩
      · unfold addPairs at hg' ⊢
        rw [List.foldlM_cons]
        refine Logged.outcome_bind_eq_ok.mpr ⟨_, ?_, hg'⟩
        exact Logged.outcome_bind_eq_ok.mpr ⟨_, outcome_addArc g he, rfl⟩
      · rw [hends]
        show (g.ends.push _).toList ++ pairs = _
        rw [Array.toList_push, List.append_assoc]
        rfl

end ListDigraph

/-- At each node the arcs with one of their ends there are listed, each of them once. -/
def ListsArcs (d : Digraph) (listed : Node → Except Error (List Arc)) (side : Ends → Nat) : Prop :=
  ∀ v < d.nodeCount, ∃ arcs, listed ⟨d.id, v⟩ = .ok arcs ∧ arcs.Nodup ∧
    ∀ arc, arc ∈ arcs ↔ d.Has arc ∧ d.ends[arc.index]?.map side = some v

/-- A graph has given nodes and arcs. -/
structure AnyGraph.Describes (g : AnyGraph) (id : GraphId) (n : Nat) (pairs : Array Ends) : Prop where
  id_eq : g.digraph.id = id
  nodeCount : g.digraph.nodeCount = n
  ends : g.digraph.ends = pairs
  outArcs : ListsArcs g.digraph g.outArcs Ends.tail
  inArcs : ListsArcs g.digraph g.inArcs Ends.head

/-- The arcs that a graph lists at a node are those of a row, into which all arcs are sorted. -/
theorem listsArcs_of_rows {d : Digraph} {listed : Node → Except Error (List Arc)}
    {side : Ends → Nat} (endOf : Fin d.arcCount → Fin d.nodeCount)
    (row : Fin d.nodeCount → List (Fin d.arcCount))
    (hend : ∀ a : Fin d.arcCount, d.ends[a.val]?.map side = some (endOf a).val)
    (hrow : ∀ v, row v = (List.finRange d.arcCount).filter fun a => endOf a = v)
    (hlisted : ∀ node, listed node = do
      let v : Fin d.nodeCount ← d.check node
      return (row v).map fun a : Fin d.arcCount => (⟨d.id, a.val⟩ : Arc)) :
    ListsArcs d listed side := by
  intro v hv
  have hnodup : (Digraph.arcsAt d.id d.ends side v).Nodup :=
    Digraph.pairwise_arcsAt.imp fun hlt heq => Nat.ne_of_lt hlt (congrArg Key.index heq)
  refine ⟨_, Digraph.listed_eq endOf row hend hrow hlisted hv, hnodup, fun arc => ?_⟩
  rw [Digraph.mem_arcsAt]
  constructor
  · rintro ⟨hgraph, hside⟩
    obtain ⟨e, he, -⟩ := Option.map_eq_some_iff.mp hside
    exact ⟨⟨hgraph, (Array.getElem?_eq_some_iff.mp he).1⟩, hside⟩
  · rintro ⟨⟨hgraph, -⟩, hside⟩
    exact ⟨hgraph, hside⟩

theorem describes_list (g : ListDigraph) : (AnyGraph.list g).Describes g.id g.nodeCount g.ends where
  id_eq := rfl
  nodeCount := rfl
  ends := rfl
  outArcs := listsArcs_of_rows g.tail _ g.getElem?_tail (fun _ => rfl) fun _ => rfl
  inArcs := listsArcs_of_rows g.head _ g.getElem?_head (fun _ => rfl) fun _ => rfl

/-- The rows of a static graph are the arcs in their order, sorted by one of their ends. -/
theorem describes_static (d : Digraph) (built : Bool) :
    (AnyGraph.static (.ofDigraph d built)).Describes d.id d.nodeCount d.ends where
  id_eq := rfl
  nodeCount := rfl
  ends := rfl
  outArcs := listsArcs_of_rows d.tail _ d.getElem?_tail
    (fun v => Compressed.getElem_ofList d.tail (List.finRange d.arcCount) v) fun _ => rfl
  inArcs := listsArcs_of_rows d.head _ d.getElem?_head
    (fun v => Compressed.getElem_ofList d.head (List.finRange d.arcCount) v) fun _ => rfl

/-- The list graph that is given nodes and arcs. -/
theorem exists_list (id : GraphId) {n : Nat} {pairs : Array Ends} (hbelow : ∀ e ∈ pairs, e.Below n) :
    ∃ g, (ListDigraph.ofPairs id n pairs).outcome = .ok g ∧
      (AnyGraph.list g).Describes id n pairs := by
  obtain ⟨hid, hnodes, hends⟩ := ListDigraph.ofNodes_eq id n
  obtain ⟨g, hg, hid', hnodes', hends'⟩ := ListDigraph.exists_addPairs (.ofNodes id n) pairs.toList
    (by
      rw [hnodes]
      exact fun e he => hbelow e (Array.mem_toList_iff.mp he))
  refine ⟨g, hg, ?_⟩
  have hg' := describes_list g
  have hpairs : g.ends = pairs := by
    rw [hends] at hends'
    exact Array.toList_inj.mp hends'
  rwa [hid', hid, hnodes', hnodes, hpairs] at hg'

/-- The static graph that is built from the same nodes and arcs. -/
theorem exists_static (id : GraphId) {n : Nat} {pairs : Array Ends}
    (hn : n ≤ StaticDigraph.countLimit) (hsize : pairs.size ≤ StaticDigraph.countLimit)
    (hbelow : ∀ e ∈ pairs, e.Below n) :
    ∃ g, (StaticDigraph.ofEnds id n pairs).outcome = .ok g ∧
      (AnyGraph.static g).Describes id n pairs := by
  have hvalid : StaticDigraph.Call.Valid ⟨n, pairs⟩ := ⟨hn, hsize, hbelow⟩
  have hbuilt : (StaticDigraph.empty id).built = false := rfl
  exact ⟨.ofDigraph ⟨id, n, pairs, hbelow⟩ true, StaticDigraph.Call.outcome_build_of_valid hbuilt hvalid,
    describes_static ⟨id, n, pairs, hbelow⟩ true⟩

/-- Graphs that have the same nodes and arcs are the same under different identities. -/
theorem digraph_of_describes {g g' : AnyGraph} {id id' : GraphId} {n : Nat} {pairs : Array Ends}
    (hg : g.Describes id n pairs) (hg' : g'.Describes id' n pairs) :
    g'.digraph = g.digraph.withId id' := by
  obtain ⟨hid, hnodes, hends, -, -⟩ := hg
  obtain ⟨hid', hnodes', hends', -, -⟩ := hg'
  generalize g.digraph = d at hid hnodes hends
  generalize g'.digraph = d' at hid' hnodes' hends'
  cases d
  cases d'
  simp only at hid hnodes hends hid' hnodes' hends'
  subst hid' hnodes hends hnodes' hends'
  rfl

/-- A list graph and a static graph can be made of the same nodes and arcs, have and list the same, and
are solved alike: whatever two solvers of them are asked, each in terms of its graph, they answer the
same. -/
theorem twins_solve_alike {n : Nat} {pairs : Array Ends} (hn : n ≤ StaticDigraph.countLimit)
    (hsize : pairs.size ≤ StaticDigraph.countLimit) (hbelow : ∀ e ∈ pairs, e.Below n)
    (id id' : GraphId) : ∃ (g : ListDigraph) (g' : StaticDigraph),
      (ListDigraph.ofPairs id n pairs).outcome = .ok g ∧
      (StaticDigraph.ofEnds id' n pairs).outcome = .ok g' ∧
      (AnyGraph.list g).Describes id n pairs ∧ (AnyGraph.static g').Describes id' n pairs ∧
      ∀ (w : Width) (α : Type) [Cost α] (method : Method)
        (requests requests' : List (Solver.Request w α)),
        List.Forall₂ (Solver.Request.Matches g.toDigraph id') requests requests' →
        Solver.SameAnswers g.toDigraph id' (Solver.made method g.toDigraph requests)
          (Solver.made method g'.toDigraph requests') := by
  obtain ⟨g, hmade, hg⟩ := exists_list id hbelow
  obtain ⟨g', hbuilt, hg'⟩ := exists_static id' hn hsize hbelow
  refine ⟨g, g', hmade, hbuilt, hg, hg', ?_⟩
  intro w α _ method requests requests' hrequests
  rw [show g'.toDigraph = g.toDigraph.withId id' from digraph_of_describes hg hg']
  exact Solver.sameAnswers_made hrequests

/-- Costs of floating-point numbers on an arc and a loop: a run answers the same on both graphs. -/
theorem loop_solve_alike : ∃ (g : ListDigraph) (g' : StaticDigraph),
    (ListDigraph.ofPairs ⟨1⟩ 2 #[⟨0, 1⟩, ⟨1, 1⟩]).outcome = .ok g ∧
    (StaticDigraph.ofEnds ⟨2⟩ 2 #[⟨0, 1⟩, ⟨1, 1⟩]).outcome = .ok g' ∧
    let costs (id : GraphId) : Solver.Request .bits32 Float := .change (.cost ⟨id, #[0.5, 0.25], 1⟩)
    (Solver.made (.networkSimplex .blockSearch) g'.toDigraph [costs ⟨2⟩, .run 10]).totalCost =
      (Solver.made (.networkSimplex .blockSearch) g.toDigraph [costs ⟨1⟩, .run 10]).totalCost := by
  obtain ⟨g, g', hmade, hbuilt, hg, hg', hsame⟩ :=
    @twins_solve_alike 2 #[⟨0, 1⟩, ⟨1, 1⟩] (by decide) (by decide) (by decide) ⟨1⟩ ⟨2⟩
  refine ⟨g, g', hmade, hbuilt, (hsame _ _ _ _ _ (.cons ?_ (.cons (.run 10) .nil))).totalCost⟩
  have hid : g.id = ⟨1⟩ := hg.id_eq
  exact .change (.cost ⟨iff_of_true hid.symm rfl, fun _ _ => rfl⟩)

end NetworkFlow
