import NetworkFlow.Proofs.CommandLine.Loaded
import NetworkFlow.Proofs.Configured
import NetworkFlow.Proofs.Graph.Twins
import NetworkFlow.Proofs.Solver.Protocol

/-!
# The problem that the files describe

Each arc row describes an arc with its bounds and its cost, and the supply of a node is what its
rows add up to. The program makes a graph and maps of the rows and configures a solver with them.
All this is as described, if it comes so far: the supplies are added up row by row in 64 bits, and a
sum that does not fit ends the program, even if what comes later would bring it back into range.

## Main results

* `graph_eq_ok`, `exists_graph_iff`: the graph of the rows.
* `exists_arcMap`, `exists_supplyMap`, `supplyMap_overflow`: the maps of the rows.
* `described_iff`: when the program solves the problem that the files describe.
* `heaped_stopped`: a sum that is in range is not formed.
-/

namespace NetworkFlow.CommandLine

/-- The upper bound that a row gives its arc; the largest amount is none. -/
def ArcRow.bound (row : ArcRow) : Option Int := row.upper.filter (· ≠ Amount.largest)

/-- The end points that a row gives its arc. -/
def ArcRow.ends (row : ArcRow) : Ends := ⟨row.tail, row.head⟩

/-- What the rows of a list with a given node add up to. -/
def SupplyRow.sum (rows : List SupplyRow) (v : Nat) : Int :=
  ((rows.filter (·.node = v)).map (·.supply)).sum

@[simp] theorem SupplyRow.sum_nil (v : Nat) : sum [] v = 0 := rfl

@[simp] theorem SupplyRow.sum_cons (row : SupplyRow) (rows : List SupplyRow) (v : Nat) :
    sum (row :: rows) v = (if row.node = v then row.supply else 0) + sum rows v := by
  by_cases hv : row.node = v <;> simp [sum, hv]

namespace Problem

variable {p : Problem} {g : Digraph}

/-- What the rows of a node add up to. -/
def supplied (p : Problem) (v : Nat) : Int := SupplyRow.sum p.supplies v

/-- What the rows of a node add up to is an amount, wherever one stops. -/
def SumsCounted (p : Problem) : Prop :=
  ∀ count v, Width.bits64.Fits (SupplyRow.sum (p.supplies.take count) v)

/-! ## The graph -/

/-- Adds the arc of a row. -/
def addRow (g : ListDigraph) (row : ArcRow) : Logged ListDigraph := do
  let (g', _) ← g.addArc (← g.node row.tail) (← g.node row.head)
  return g'

/-- Exactly the rows between nodes of the graph give it an arc. -/
theorem addRow_eq_ok {g g' : ListDigraph} {row : ArcRow} :
    (addRow g row).outcome = .ok g' ↔
      ∃ h : row.ends.Below g.nodeCount, g' = g.addEnds ⟨row.tail, h.1⟩ ⟨row.head, h.2⟩ := by
  have hnode : ∀ {i : Nat} {key : Node}, (Logged.ofExcept (g.node i)).outcome = .ok key ↔
      i < g.nodeCount ∧ key = ⟨g.id, i⟩ := fun {i key} =>
    Logged.outcome_ofExcept_eq_ok.trans Digraph.key_eq_ok
  constructor
  · intro h
    obtain ⟨tail, htail, h⟩ := Logged.outcome_bind_eq_ok.mp h
    obtain ⟨head, hhead, h⟩ := Logged.outcome_bind_eq_ok.mp h
    obtain ⟨htailLt, rfl⟩ := hnode.mp htail
    obtain ⟨hheadLt, rfl⟩ := hnode.mp hhead
    have hbelow : row.ends.Below g.nodeCount := ⟨htailLt, hheadLt⟩
    obtain ⟨added, hadd, h⟩ := Logged.outcome_bind_eq_ok.mp h
    obtain rfl : added = _ := Except.ok.inj (hadd.symm.trans (g.outcome_addArc hbelow))
    cases h
    exact ⟨hbelow, rfl⟩
  · rintro ⟨hbelow, rfl⟩
    refine Logged.outcome_bind_eq_ok.mpr ⟨⟨g.id, row.tail⟩, hnode.mpr ⟨hbelow.1, rfl⟩, ?_⟩
    refine Logged.outcome_bind_eq_ok.mpr ⟨⟨g.id, row.head⟩, hnode.mpr ⟨hbelow.2, rfl⟩, ?_⟩
    exact Logged.outcome_bind_eq_ok.mpr ⟨_, g.outcome_addArc hbelow, rfl⟩

/-- Rows between nodes of the graph add their arcs behind the others. -/
theorem foldlM_addRow_eq_ok {rows : List ArcRow} {g g' : ListDigraph}
    (h : (rows.foldlM addRow g).outcome = .ok g') :
    g'.id = g.id ∧ g'.nodeCount = g.nodeCount ∧
      g'.ends.toList = g.ends.toList ++ rows.map ArcRow.ends := by
  induction rows generalizing g with
  | nil =>
      cases h
      exact ⟨rfl, rfl, (List.append_nil _).symm⟩
  | cons row rows ih =>
      rw [List.foldlM_cons] at h
      obtain ⟨g₁, hrow, h⟩ := Logged.outcome_bind_eq_ok.mp h
      obtain ⟨hbelow, rfl⟩ := addRow_eq_ok.mp hrow
      obtain ⟨hid, hnodes, hends⟩ := ih h
      refine ⟨hid, hnodes, hends.trans ?_⟩
      show (g.ends.push row.ends).toList ++ rows.map ArcRow.ends = _
      rw [Array.toList_push, List.append_assoc]
      rfl

theorem exists_foldlM_addRow {rows : List ArcRow} {g : ListDigraph}
    (h : ∀ row ∈ rows, row.ends.Below g.nodeCount) :
    ∃ g', (rows.foldlM addRow g).outcome = .ok g' := by
  induction rows generalizing g with
  | nil => exact ⟨g, rfl⟩
  | cons row rows ih =>
      have hbelow := h row (List.mem_cons_self ..)
      obtain ⟨g', hg'⟩ := ih (g := g.addEnds ⟨row.tail, hbelow.1⟩ ⟨row.head, hbelow.2⟩)
        fun row' hrow' => h row' (List.mem_cons_of_mem _ hrow')
      rw [List.foldlM_cons]
      exact ⟨g', Logged.outcome_bind_eq_ok.mpr ⟨_, addRow_eq_ok.mpr ⟨hbelow, rfl⟩, hg'⟩⟩

/-- The graph with all nodes and no arcs. -/
theorem fold_addNode (id : GraphId) (n : Nat) :
    n.fold (fun _ _ g => (ListDigraph.addNode g).1) (ListDigraph.empty id) =
      ListDigraph.ofNodes id n := by
  induction n with
  | zero => rfl
  | succ n ih =>
      rw [Nat.fold_succ, ih]
      rfl

theorem listDigraph_eq (p : Problem) : p.listDigraph = (do
    let g ← p.arcs.foldlM addRow (ListDigraph.ofNodes ⟨1⟩ p.nodes)
    return g.toDigraph) := by
  rw [← fold_addNode]
  rfl

/-- The graph has the nodes and the arcs of the problem. -/
theorem graph_eq_ok {choice : GraphChoice} (h : (p.graph choice).outcome = .ok g) :
    g.id = ⟨1⟩ ∧ g.nodeCount = p.nodes ∧ g.ends = p.ends := by
  cases choice with
  | static =>
      obtain ⟨g', hbuild, h⟩ := Logged.outcome_bind_eq_ok.mp h
      cases h
      obtain ⟨-, -, -, hbelow, rfl⟩ := StaticDigraph.build_eq_ok hbuild
      exact ⟨rfl, rfl, rfl⟩
  | list =>
      change p.listDigraph.outcome = .ok g at h
      rw [listDigraph_eq] at h
      obtain ⟨g', hrows, h⟩ := Logged.outcome_bind_eq_ok.mp h
      cases h
      obtain ⟨hid, hnodes, hends⟩ := ListDigraph.ofNodes_eq ⟨1⟩ p.nodes
      obtain ⟨hid', hnodes', hends'⟩ := foldlM_addRow_eq_ok hrows
      refine ⟨hid'.trans hid, hnodes'.trans hnodes, Array.toList_inj.mp ?_⟩
      rw [hends', hends]
      rfl

/-- There is a graph exactly if all arcs are between nodes and, if it is built once, there are not too
many nodes or arcs. -/
theorem exists_graph_iff (choice : GraphChoice) : (∃ g, (p.graph choice).outcome = .ok g) ↔
    (∀ row ∈ p.arcs, row.ends.Below p.nodes) ∧ (choice = .static →
      p.nodes ≤ StaticDigraph.countLimit ∧ p.arcs.length ≤ StaticDigraph.countLimit) := by
  have hends : ∀ e, e ∈ p.ends ↔ ∃ row ∈ p.arcs, row.ends = e := by
    intro e
    simp [Problem.ends, ArcRow.ends]
  have hsize : p.ends.size = p.arcs.length := by simp [Problem.ends]
  constructor
  · rintro ⟨g, h⟩
    obtain ⟨-, hnodes, hg⟩ := graph_eq_ok h
    refine ⟨fun row hrow => ?_, ?_⟩
    · rw [← hnodes]
      exact g.below _ (hg ▸ (hends _).mpr ⟨row, hrow, rfl⟩)
    · rintro rfl
      obtain ⟨g', hbuild, -⟩ := Logged.outcome_bind_eq_ok.mp h
      obtain ⟨-, hle, hle', -, -⟩ := StaticDigraph.build_eq_ok hbuild
      exact ⟨hle, hsize ▸ hle'⟩
  · rintro ⟨hbelow, hlimit⟩
    cases choice with
    | static =>
        obtain ⟨hnodes, harcs⟩ := hlimit rfl
        have hpairs : ∀ e ∈ p.ends, e.Below p.nodes := by
          intro e he
          obtain ⟨row, hrow, rfl⟩ := (hends e).mp he
          exact hbelow row hrow
        obtain ⟨g', hg', -⟩ := exists_static ⟨1⟩ hnodes (hsize.symm ▸ harcs) hpairs
        exact ⟨g'.toDigraph, Logged.outcome_bind_eq_ok.mpr ⟨g', hg', rfl⟩⟩
    | list =>
        obtain ⟨-, hnodes, -⟩ := ListDigraph.ofNodes_eq ⟨1⟩ p.nodes
        obtain ⟨g, hg⟩ := exists_foldlM_addRow (g := .ofNodes ⟨1⟩ p.nodes) (hnodes.symm ▸ hbelow)
        refine ⟨g.toDigraph, ?_⟩
        show p.listDigraph.outcome = _
        rw [listDigraph_eq]
        exact Logged.outcome_bind_eq_ok.mpr ⟨g, hg, rfl⟩

/-! ## The maps -/

/-- A map over the arcs holds the values of the rows. -/
theorem exists_arcMap {α : Type} (hends : g.ends = p.ends) (fill : α) (value : ArcRow → α) :
    ∃ map, p.arcMap g fill value = .ok map ∧ map.graph = g.id ∧
      ∀ (a : Nat) (row : ArcRow), p.arcs[a]? = some row → map.valueAt a = value row := by
  have hcount : (g.keys .arc).length = p.arcs.length := by
    simp [Digraph.keys, Digraph.count, Digraph.arcCount, hends, Problem.ends]
  let entries := ((g.keys .arc).zip p.arcs).map fun e => (e.1, value e.2)
  have hkeys : entries.map Prod.fst = g.keys .arc := by
    rw [List.map_map]
    exact List.map_fst_zip hcount.le
  have howned : ∀ e ∈ entries, e.1.graph = g.id := by
    intro e he
    have hmem : e.1 ∈ g.keys .arc := hkeys ▸ List.mem_map_of_mem he
    exact (Digraph.mem_keys.mp hmem).1
  obtain ⟨map, hfold, hgraph, hget⟩ := KeyedMap.exists_foldlM_set
    (KeyedMap.ofGraph g .arc fill) entries howned (by
      rw [hkeys]
      exact List.nodup_range.map fun i j h => congrArg Key.index h)
  refine ⟨map, ?_, hgraph, fun a row hrow => ?_⟩
  · rw [List.foldlM_map] at hfold
    exact hfold
  · have hlt : a < p.arcs.length := (List.getElem?_eq_some_iff.mp hrow).1
    have hkey : (g.keys .arc)[a]? = some ⟨g.id, a⟩ := by
      have hrange : a < g.count .arc := by simpa [Digraph.keys, ← hcount] using hlt
      simp [Digraph.keys, hrange]
    have hmem : ((⟨g.id, a⟩ : Arc), value row) ∈ entries :=
      List.mem_map.mpr ⟨(⟨g.id, a⟩, row),
        List.mem_of_getElem? (List.getElem?_zip_eq_some.mpr ⟨hkey, hrow⟩), rfl⟩
    exact Except.ok.inj ((KeyedMap.get_of_graph hgraph).symm.trans (hget _ hmem))

/-- Adds the supply of a row to that of its node. -/
def addRowSupply (g : Digraph) (map : NodeMap (Word .bits64)) (row : SupplyRow) :
    Logged (NodeMap (Word .bits64)) := do
  let node ← g.node row.node
  map.set node (← addSupply (← map.get node) row.supply)

section Supplies

variable {map : NodeMap (Word .bits64)} {row : SupplyRow} {rows : List SupplyRow}

theorem addRowSupply_eq (hgraph : map.graph = g.id) (h : row.node < g.nodeCount) :
    addRowSupply g map row = Logged.ofRun
      ((addSupply (map.valueAt row.node) row.supply).map (map.setAt row.node)) := by
  have hnode : g.node row.node = .ok ⟨g.id, row.node⟩ := Digraph.key_eq_ok.mpr ⟨h, rfl⟩
  have hget : map.get ⟨g.id, row.node⟩ = .ok (map.valueAt row.node) :=
    KeyedMap.get_of_graph hgraph
  have hset : ∀ x, map.set ⟨g.id, row.node⟩ x = .ok (map.setAt row.node x) := fun x =>
    KeyedMap.set_of_graph hgraph x
  unfold addRowSupply
  rw [hnode]
  simp only [liftM, monadLift, MonadLift.monadLift, Logged.ofExcept, Logged.ofValue, Logged.ok_bind,
    hget]
  cases addSupply (map.valueAt row.node) row.supply with
  | error why => rfl
  | ok x => simp [Logged.ofRun, Logged.ofValue, hset, Except.map]

/-- A supply is added to that of its node. -/
theorem addRowSupply_of_fits (hgraph : map.graph = g.id) (h : row.node < g.nodeCount)
    (hfits : Width.bits64.Fits ((map.valueAt row.node).val + row.supply)) :
    (addRowSupply g map row).outcome = .ok (map.setAt row.node ⟨_, hfits⟩) := by
  rw [addRowSupply_eq hgraph h, addSupply, Word.ofInt?_of_fits hfits]
  rfl

theorem addRowSupply_overflow (hgraph : map.graph = g.id) (h : row.node < g.nodeCount)
    (hfits : ¬ Width.bits64.Fits ((map.valueAt row.node).val + row.supply)) :
    (addRowSupply g map row).outcome = .error .overflow := by
  rw [addRowSupply_eq hgraph h, addSupply, Word.ofInt?, dif_neg hfits]
  rfl

/-- A map to which the supply of a row has been added. -/
theorem valueAt_addRow (hfits : Width.bits64.Fits ((map.valueAt row.node).val + row.supply))
    (v : Nat) : ((map.setAt row.node ⟨_, hfits⟩).valueAt v).val =
      (map.valueAt v).val + if row.node = v then row.supply else 0 := by
  by_cases hv : row.node = v
  · subst hv
    rw [map.valueAt_set_self, if_pos rfl]
  · rw [map.valueAt_set_of_ne _ hv, if_neg hv, add_zero]

/-- The supplies of nodes of the graph are added to those of a map if all sums on the way are
amounts. -/
theorem foldlM_addRowSupply (hgraph : map.graph = g.id) (h : ∀ row ∈ rows, row.node < g.nodeCount)
    (hsums : ∀ count v, Width.bits64.Fits
      ((map.valueAt v).val + SupplyRow.sum (rows.take count) v)) :
    ∃ map', (rows.foldlM (addRowSupply g) map).outcome = .ok map' ∧ map'.graph = g.id ∧
      ∀ v, (map'.valueAt v).val = (map.valueAt v).val + SupplyRow.sum rows v := by
  induction rows generalizing map with
  | nil => exact ⟨map, rfl, hgraph, fun v => (add_zero _).symm⟩
  | cons row rows ih =>
      have hfits : Width.bits64.Fits ((map.valueAt row.node).val + row.supply) := by
        simpa using hsums 1 row.node
      have hvalue := valueAt_addRow hfits
      have hset : (map.setAt row.node ⟨_, hfits⟩).graph = g.id := hgraph
      obtain ⟨map', hfold, hgraph', hvalue'⟩ := ih hset
        (fun row' hrow' => h row' (List.mem_cons_of_mem _ hrow')) fun count v => by
          have := hsums (count + 1) v
          rwa [List.take_succ_cons, SupplyRow.sum_cons, ← add_assoc, ← hvalue] at this
      refine ⟨map', ?_, hgraph', fun v => ?_⟩
      · rw [List.foldlM_cons]
        exact Logged.outcome_bind_eq_ok.mpr
          ⟨_, addRowSupply_of_fits hgraph (h row List.mem_cons_self) hfits, hfold⟩
      · rw [hvalue', hvalue, SupplyRow.sum_cons, add_assoc]

/-- They are not if one of the sums is no amount. -/
theorem foldlM_addRowSupply_overflow (hgraph : map.graph = g.id)
    (h : ∀ row ∈ rows, row.node < g.nodeCount) {count v : Nat}
    (hsum : ¬ Width.bits64.Fits ((map.valueAt v).val + SupplyRow.sum (rows.take count) v)) :
    (rows.foldlM (addRowSupply g) map).outcome = .error .overflow := by
  induction rows generalizing map count with
  | nil => simp [(map.valueAt v).fits] at hsum
  | cons row rows ih =>
      have hrow := h row List.mem_cons_self
      rw [List.foldlM_cons]
      by_cases hfits : Width.bits64.Fits ((map.valueAt row.node).val + row.supply)
      · cases count with
        | zero => simp [(map.valueAt v).fits] at hsum
        | succ count =>
            rw [List.take_succ_cons, SupplyRow.sum_cons, ← add_assoc,
              ← valueAt_addRow hfits] at hsum
            exact Logged.outcome_bind_eq_error.mpr (Or.inr
              ⟨_, addRowSupply_of_fits hgraph hrow hfits,
                ih hgraph (fun row' hrow' => h row' (List.mem_cons_of_mem _ hrow')) hsum⟩)
      · exact Logged.outcome_bind_eq_error.mpr (Or.inl (addRowSupply_overflow hgraph hrow hfits))

end Supplies

/-- The supply of a node is its sum. -/
theorem exists_supplyMap (h : ∀ row ∈ p.supplies, row.node < g.nodeCount) (hsums : p.SumsCounted) :
    ∃ map, (p.supplyMap g).outcome = .ok map ∧ map.graph = g.id ∧
      ∀ v, (map.valueAt v).val = p.supplied v := by
  have hzero : ∀ v, ((KeyedMap.ofGraph g .node (default : Word .bits64)).valueAt v).val = 0 :=
    fun v => by rw [KeyedMap.valueAt_ofGraph]; rfl
  have hgraph : (KeyedMap.ofGraph g .node (default : Word .bits64)).graph = g.id := rfl
  obtain ⟨map, hfold, hgraph, hvalue⟩ := foldlM_addRowSupply hgraph h fun count v => by
    rw [hzero, zero_add]
    exact hsums count v
  refine ⟨map, hfold, hgraph, fun v => ?_⟩
  rw [hvalue, hzero, zero_add, supplied]

/-- Without all sums on the way there is no map of the supplies. -/
theorem supplyMap_overflow (h : ∀ row ∈ p.supplies, row.node < g.nodeCount)
    (hsums : ¬ p.SumsCounted) : (p.supplyMap g).outcome = .error .overflow := by
  obtain ⟨count, v, hsum⟩ : ∃ count v,
      ¬ Width.bits64.Fits (SupplyRow.sum (p.supplies.take count) v) := by
    simpa [SumsCounted] using hsums
  have hsum' : ¬ Width.bits64.Fits (((KeyedMap.ofGraph g .node (default : Word .bits64)).valueAt v).val +
      SupplyRow.sum (p.supplies.take count) v) := by
    rw [KeyedMap.valueAt_ofGraph]
    exact (zero_add (SupplyRow.sum (p.supplies.take count) v)).symm ▸ hsum
  exact foldlM_addRowSupply_overflow rfl h hsum'

/-! ## The configuration -/

/-- A configuration has the nodes and the arcs of a problem, with the bounds, costs and sums of its
rows. -/
structure Describes (p : Problem) (c : Configuration .bits64 Float) : Prop where
  nodes : c.nodes = p.nodes
  ends : c.graph.ends = p.ends
  lower : ∀ (a : Fin c.arcs) row, p.arcs[a.val]? = some row → c.lowerAt a = row.lower.getD 0
  upper : ∀ (a : Fin c.arcs) row, p.arcs[a.val]? = some row → c.upperAt a = row.bound
  cost : ∀ (a : Fin c.arcs) row, p.arcs[a.val]? = some row → c.costAt a = row.cost
  supply : ∀ v : Fin c.nodes, c.supplyAt v = p.supplied v

/-- The solver is configured with the maps, which are maps over the graph. -/
theorem configuration_eq_ok {lower upper : ArcMap (Word .bits64)} {cost : ArcMap Float}
    {supply : NodeMap (Word .bits64)}
    (hlower : p.arcMap g default (fun row => .wrap (row.lower.getD 0)) = .ok lower)
    (hupper : p.arcMap g default (fun row => .wrap (row.upper.getD Amount.largest)) = .ok upper)
    (hcost : p.arcMap g 0.0 (·.cost) = .ok cost) (hsupply : (p.supplyMap g).outcome = .ok supply)
    (hgraphs : lower.graph = g.id ∧ upper.graph = g.id ∧ cost.graph = g.id ∧ supply.graph = g.id) :
    (p.configuration g).outcome = .ok
      { graph := g, lower := some lower, upper := some upper, cost := some cost,
        supply := .map supply } := by
  obtain ⟨hl, hu, hc, hs⟩ := hgraphs
  refine Logged.outcome_bind_eq_ok.mpr ⟨lower, Logged.outcome_ofExcept_eq_ok.mpr hlower, ?_⟩
  refine Logged.outcome_bind_eq_ok.mpr ⟨upper, Logged.outcome_ofExcept_eq_ok.mpr hupper, ?_⟩
  refine Logged.outcome_bind_eq_ok.mpr ⟨cost, Logged.outcome_ofExcept_eq_ok.mpr hcost, ?_⟩
  refine Logged.outcome_bind_eq_ok.mpr ⟨supply, hsupply, ?_⟩
  simp [Configuration.setLower, Configuration.setUpper, Configuration.setCost,
    Configuration.setSupply, Configuration.owns, hl, hu, hc, hs, bind, Except.bind, pure,
    Except.pure, liftM, monadLift, MonadLift.monadLift, Logged.ofExcept, Logged.ofValue,
    Logged.andThen]

/-- A bound that is the largest amount is none. -/
theorem capacity?_wrap {row : ArcRow} (h : row.InRange) :
    Amount.capacity? (.wrap (row.upper.getD Amount.largest) : Word .bits64) = row.bound := by
  have hlargest : (Word.largest .bits64).val = Amount.largest := rfl
  unfold Amount.capacity? ArcRow.bound
  cases hupper : row.upper with
  | none => rfl
  | some x =>
      have hfits := h.upper x hupper
      rw [Option.getD_some, Word.wrap_of_fits hfits, Amount.ofWord_eq (by decide)]
      by_cases hx : x = Amount.largest
      · subst hx
        rfl
      · have hne : (⟨x, hfits⟩ : Word .bits64) ≠ Word.largest .bits64 :=
          fun heq => hx ((congrArg Word.val heq).trans hlargest)
        rw [if_neg hne]
        exact (Option.filter_eq_some_iff.mpr ⟨rfl, by simpa using hx⟩).symm

/-- All supplies are supplies of nodes of the graph. -/
theorem supplies_below (hp : p.Loaded) {choice : GraphChoice}
    (hg : (p.graph choice).outcome = .ok g) : ∀ row ∈ p.supplies, row.node < g.nodeCount := by
  obtain ⟨-, hnodes, -⟩ := graph_eq_ok hg
  intro row hrow
  rw [hnodes]
  exact hp.indices_lt _ (mem_indices.mpr (.inr ⟨row, hrow, rfl⟩))

/-- Once the graph is made, the configuration is as described, if all sums on the way are amounts. -/
theorem exists_configuration (hp : p.Loaded) {choice : GraphChoice}
    (hg : (p.graph choice).outcome = .ok g) (hsums : p.SumsCounted) :
    ∃ c, (p.configuration g).outcome = .ok c ∧ p.Describes c := by
  obtain ⟨-, hnodes, hends⟩ := graph_eq_ok hg
  obtain ⟨lower, hlower, hlowerGraph, hlowerAt⟩ := exists_arcMap hends
    (default : Word .bits64) fun row => .wrap (row.lower.getD 0)
  obtain ⟨upper, hupper, hupperGraph, hupperAt⟩ := exists_arcMap hends
    (default : Word .bits64) fun row => .wrap (row.upper.getD Amount.largest)
  obtain ⟨cost, hcost, hcostGraph, hcostAt⟩ := exists_arcMap hends 0.0 (·.cost)
  obtain ⟨supply, hsupply, hsupplyGraph, hsupplyAt⟩ := exists_supplyMap (supplies_below hp hg) hsums
  refine ⟨_, configuration_eq_ok hlower hupper hcost hsupply
    ⟨hlowerGraph, hupperGraph, hcostGraph, hsupplyGraph⟩, hnodes, hends, fun a row hrow => ?_,
    fun a row hrow => ?_, fun a row hrow => hcostAt a row hrow, fun v => ?_⟩
  · have hfits : Width.bits64.Fits (row.lower.getD 0) := by
      have hrange := hp.arcs row (List.mem_of_getElem? hrow)
      cases hlower : row.lower with
      | none => exact Width.fits_zero _
      | some x => exact hrange.lower x hlower
    show Amount.ofWord (lower.valueAt a) = _
    rw [hlowerAt a row hrow, Amount.ofWord_eq (by decide), Word.wrap_of_fits hfits]
  · show Amount.capacity? (upper.valueAt a) = _
    rw [hupperAt a row hrow, capacity?_wrap (hp.arcs row (List.mem_of_getElem? hrow))]
  · show Amount.ofWord (supply.valueAt v) = _
    rw [Amount.ofWord_eq (by decide), hsupplyAt]

/-- Otherwise there is none. -/
theorem configuration_overflow (hp : p.Loaded) {choice : GraphChoice}
    (hg : (p.graph choice).outcome = .ok g) (hsums : ¬ p.SumsCounted) :
    (p.configuration g).outcome = .error .overflow := by
  obtain ⟨-, -, hends⟩ := graph_eq_ok hg
  have hmap : ∀ {α : Type} (fill : α) (value : ArcRow → α),
      ∃ map, (Logged.ofExcept (p.arcMap g fill value)).outcome = .ok map := by
    intro α fill value
    obtain ⟨map, hmap, -⟩ := exists_arcMap hends fill value
    exact ⟨map, Logged.outcome_ofExcept_eq_ok.mpr hmap⟩
  obtain ⟨lower, hlower⟩ := hmap (default : Word .bits64) fun row => .wrap (row.lower.getD 0)
  obtain ⟨upper, hupper⟩ := hmap (default : Word .bits64) fun row =>
    .wrap (row.upper.getD Amount.largest)
  obtain ⟨cost, hcost⟩ := hmap 0.0 (·.cost)
  refine Logged.outcome_bind_eq_error.mpr (Or.inr ⟨lower, hlower, ?_⟩)
  refine Logged.outcome_bind_eq_error.mpr (Or.inr ⟨upper, hupper, ?_⟩)
  refine Logged.outcome_bind_eq_error.mpr (Or.inr ⟨cost, hcost, ?_⟩)
  exact Logged.outcome_bind_eq_error.mpr
    (Or.inl (supplyMap_overflow (supplies_below hp hg) hsums))

/-! ## The run -/

variable {fuel : Nat} {files : Files} {o : Options}

theorem andThen_eq_ok {α : Type} {remarks : List Remark} {x : Logged α}
    {f : List Remark → α → Report} {text : String}
    (h : (Report.andThen remarks x f).outcome = .ok text) :
    ∃ a, x.outcome = .ok a ∧ (f (remarks ++ x.events.map .event) a).outcome = .ok text := by
  unfold Report.andThen at h
  cases hx : x.outcome with
  | error fault =>
      simp only [hx] at h
      cases h
  | ok a =>
      simp only [hx] at h
      exact ⟨a, rfl, h⟩

/-- What the program writes are the flows of an optimal answer to what it has configured. -/
theorem runProblem_eq_ok {text : String} (h : (runProblem fuel files o p).outcome = .ok text) :
    ∃ g c answer, (p.graph o.graph).outcome = .ok g ∧ (p.configuration g).outcome = .ok c ∧
      (solve fuel o.method c).outcome = .ok answer ∧ answer.verdict = .optimal ∧
      text = render g answer.flows := by
  obtain ⟨g, hg, h⟩ := andThen_eq_ok h
  obtain ⟨answer, hsolve, h⟩ := andThen_eq_ok h
  obtain ⟨c, hc, hsolve⟩ := Logged.outcome_bind_eq_ok.mp hsolve
  refine ⟨g, c, answer, hg, hc, hsolve, ?_⟩
  simp only at h
  split at h
  · cases h
  · rename_i hverdict
    split at h
    · cases h
      exact ⟨not_not.mp hverdict, rfl⟩
    · cases h

/-- If a sum on the way is no amount, the program is stopped. -/
theorem status_of_overflow {args : List String} (hargs : Options.ofArguments args = .ok o)
    (hload : load files o = .ok p) (hg : (p.graph o.graph).outcome = .ok g)
    (hsums : ¬ p.SumsCounted) : (run fuel files args).status = 101 := by
  have hsolve : (p.configuration g >>= solve fuel o.method).outcome = .error .overflow :=
    Logged.outcome_bind_eq_error.mpr
      (Or.inl (configuration_overflow (loaded hargs hload) hg hsums))
  have hrun : (runProblem fuel files o p).outcome = .error (.interrupted .overflow) := by
    simp only [runProblem, Report.andThen, hg, hsolve, Failure.ofFault]
  simp only [run, hargs, runOptions, hload, hrun, Failure.status]

/-- For arguments and files that the program reads, all nodes that occur in a row are below the number
of nodes, and the graph is made, if not too large for one that is built once.

Whatever the program then configures has the nodes, arcs, bounds, costs and supplies that the rows
describe, and what is written are the flows of an optimal answer to it. It is configured if and only
if, at every node, the supplies of its rows add up to an amount wherever one stops; otherwise the
program is stopped by an overflow, also if the sum of all rows of the node would be an amount. -/
theorem described_iff {args : List String} (hargs : Options.ofArguments args = .ok o)
    (hload : load files o = .ok p) :
    (∀ i ∈ indices p.arcs p.supplies, i < p.nodes) ∧
    ((∃ g, (p.graph o.graph).outcome = .ok g) ↔ (o.graph = .static →
      p.nodes ≤ StaticDigraph.countLimit ∧ p.arcs.length ≤ StaticDigraph.countLimit)) ∧
    ∀ g, (p.graph o.graph).outcome = .ok g →
      ((∃ c, (p.configuration g).outcome = .ok c) ↔ p.SumsCounted) ∧
      (∀ c, (p.configuration g).outcome = .ok c → p.Describes c ∧
        ∀ fuel text, (runProblem fuel files o p).outcome = .ok text →
          ∃ answer, (solve fuel o.method c).outcome = .ok answer ∧ answer.verdict = .optimal ∧
            text = render g answer.flows) ∧
      (¬ p.SumsCounted → ∀ fuel, (run fuel files args).status = 101) := by
  have hp := loaded hargs hload
  have harcs : ∀ row ∈ p.arcs, row.ends.Below p.nodes := fun row hrow =>
    ⟨hp.indices_lt _ (mem_indices.mpr (.inl ⟨row, hrow, .inl rfl⟩)),
      hp.indices_lt _ (mem_indices.mpr (.inl ⟨row, hrow, .inr rfl⟩))⟩
  refine ⟨hp.indices_lt, (exists_graph_iff o.graph).trans (and_iff_right harcs), fun g hg => ?_⟩
  have hconfigured : (∃ c, (p.configuration g).outcome = .ok c) ↔ p.SumsCounted := by
    refine ⟨fun ⟨c, hc⟩ => ?_, fun hsums => ?_⟩
    · by_contra hsums
      rw [configuration_overflow hp hg hsums] at hc
      cases hc
    · obtain ⟨c, hc, -⟩ := exists_configuration hp hg hsums
      exact ⟨c, hc⟩
  refine ⟨hconfigured, fun c hc => ⟨?_, fun fuel text htext => ?_⟩,
    fun hsums fuel => status_of_overflow hargs hload hg hsums⟩
  · obtain ⟨c', hc', hdescribes⟩ := exists_configuration hp hg (hconfigured.mp ⟨c, hc⟩)
    obtain rfl : c = c' := Except.ok.inj (hc.symm.trans hc')
    exact hdescribes
  · obtain ⟨g', c', answer, hg', hc', hsolve, hverdict, hrender⟩ := runProblem_eq_ok htext
    obtain rfl : g = g' := Except.ok.inj (hg.symm.trans hg')
    obtain rfl : c = c' := Except.ok.inj (hc.symm.trans hc')
    exact ⟨answer, hsolve, hverdict, hrender⟩

/-- Arguments that name two files. -/
def twoFiles : List String :=
  ["--arcs", "arcs.csv", "--supplies", "supplies.csv", "--algorithm", "capacity-scaling"]

/-- The options that they are read as. -/
def twoFilesOptions : Options where
  arcs := "arcs.csv"
  supplies := some "supplies.csv"
  nodes := none
  algorithm := .capacityScaling
  pivotRule := .standard
  alpha := Method.standardAlpha
  factor := Method.standardFactor
  graph := .static
  output := none
  logLevel := .info

theorem ofArguments_twoFiles : Options.ofArguments twoFiles = .ok twoFilesOptions :=
  ok_of_toOption (by decide +kernel)

/-- The two files with given texts. -/
def filesOf (arcs supplies : String) : Files where
  read path := .ok (if path = "arcs.csv" then arcs else supplies)
  canCreate _ := true

theorem exists_of_toOption_map {α β ε : Type} {x : Except ε α} {f : α → β} {b : β}
    (h : x.toOption.map f = some b) : ∃ a, x = .ok a ∧ f a = b := by
  obtain ⟨a, ha, hb⟩ := Option.map_eq_some_iff.mp h
  exact ⟨a, ok_of_toOption ha, hb⟩

/-- An arc from the first to the second one of two nodes, and three supplies. -/
def sharedFiles : Files :=
  filesOf "tail,head,lower,upper,cost\n0,1,,5,1.5\n" "node,supply\n1,-3\n0,2\n1,1\n"

/-- The two supplies of the second node are added up. -/
theorem described_iff_sharedFiles :
    ∃ p g c, Options.ofArguments twoFiles = .ok twoFilesOptions ∧
      load sharedFiles twoFilesOptions = .ok p ∧ (p.configuration g).outcome = .ok c ∧
      p.Describes c ∧ p.supplied 0 = 2 ∧ p.supplied 1 = -2 := by
  obtain ⟨p, hload, hread⟩ : ∃ p, load sharedFiles twoFilesOptions = .ok p ∧
      (p.nodes, p.arcs.length, p.supplies) = (2, 1, [⟨1, -3⟩, ⟨0, 2⟩, ⟨1, 1⟩]) :=
    exists_of_toOption_map (by decide +kernel)
  simp only [Prod.mk.injEq] at hread
  obtain ⟨hnodes, harcs, hsupplies⟩ := hread
  have hsums : p.SumsCounted := by
    intro count v
    rw [hsupplies]
    rcases count with _ | _ | _ | count
    · exact Width.fits_zero _
    all_goals
      simp only [zero_add, List.take_succ_cons, List.take_zero, List.take_nil,
        SupplyRow.sum_cons, SupplyRow.sum_nil]
      split_ifs <;> decide
  obtain ⟨-, hgraph, hconfigured⟩ := described_iff ofArguments_twoFiles hload
  obtain ⟨g, hg⟩ := hgraph.mpr fun _ => by rw [hnodes, harcs]; decide
  obtain ⟨hexists, hdescribes, -⟩ := hconfigured g hg
  obtain ⟨c, hc⟩ := hexists.mpr hsums
  refine ⟨p, g, c, ofArguments_twoFiles, hload, hc, (hdescribes c hc).1, ?_, ?_⟩
  · rw [supplied, hsupplies]
    decide
  · rw [supplied, hsupplies]
    decide

/-- No arcs, and two to the 62nd as the supply of a node in each of two rows, and the opposite in two
more. -/
def heapedFiles : Files :=
  filesOf "tail,head,lower,upper,cost\n" ("node,supply\n0,4611686018427387904\n" ++
    "0,4611686018427387904\n0,-4611686018427387904\n0,-4611686018427387904\n")

/-- The four supplies add up to zero. The first two do not fit, and the program is stopped. -/
theorem heaped_stopped :
    ∃ p, Options.ofArguments twoFiles = .ok twoFilesOptions ∧
      load heapedFiles twoFilesOptions = .ok p ∧ p.nodes = 1 ∧ p.supplied 0 = 0 ∧
      (run 9 heapedFiles twoFiles).status = 101 := by
  obtain ⟨p, hload, hread⟩ : ∃ p, load heapedFiles twoFilesOptions = .ok p ∧
      (p.nodes, p.supplied 0) = (1, 0) :=
    exists_of_toOption_map (by decide +kernel)
  simp only [Prod.mk.injEq] at hread
  exact ⟨p, ofArguments_twoFiles, hload, hread.1, hread.2, by decide +kernel⟩

end Problem

end NetworkFlow.CommandLine
