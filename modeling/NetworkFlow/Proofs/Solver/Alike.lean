import NetworkFlow.Proofs.Solver.Protocol

/-!
# Nothing depends on the identity of a graph

Two graphs with the same nodes and arcs may have different identities. Then a key or a map of one is
none of the other, but what is asked of a solver of one can be asked of a solver of the other in its
own terms: with a key of the same number, and with a map of the same values (`Request.Matches`). The
two solvers stay alike: they are refused the same, run the same, and answer the same at each number.

What is computed is equal, step by step, and not only equal in value. So this holds of every type of
costs, of floating-point numbers too.

## Main results

* `Maps.Alike.solve`: configurations with maps that read alike are solved alike.
* `Solver.Alike.after`: solvers that are alike are still alike after the same request.
* `Solver.sameAnswers_made`: all their answers are the same.
-/

namespace NetworkFlow

variable {w : Width} {α : Type} {g : Digraph} {id' : GraphId}

/-- A fold depends on what its step does with the items of the list. -/
theorem foldlM_congr {m : Type → Type} [Monad m] {σ ι : Type} {step step' : σ → ι → m σ}
    {xs : List ι} (h : ∀ x ∈ xs, ∀ s, step s x = step' s x) (s : σ) :
    xs.foldlM step s = xs.foldlM step' s := by
  induction xs generalizing s with
  | nil => rfl
  | cons x xs ih =>
      rw [List.foldlM_cons, List.foldlM_cons, h x (List.mem_cons_self ..)]
      exact congrArg (step' s x >>= ·) (funext (ih fun y hy => h y (List.mem_cons_of_mem _ hy)))

/-- The same nodes and arcs under another identity. -/
@[reducible] def Digraph.withId (g : Digraph) (id' : GraphId) : Digraph := { g with id := id' }

/-- Keys of the same number, both of them of their graphs or both not. -/
structure Key.Matches (id id' : GraphId) {kind : KeyKind} (key key' : Key kind) : Prop where
  owner : key.graph = id ↔ key'.graph = id'
  index : key'.index = key.index

/-- Maps with the same values, both of them of their graphs or both not. -/
structure KeyedMap.Matches (g : Digraph) (id' : GraphId) {kind : KeyKind} {β : Type}
    (map map' : KeyedMap kind β) : Prop where
  owner : map.graph = g.id ↔ map'.graph = id'
  valueAt : ∀ i < g.count kind, map'.valueAt i = map.valueAt i

theorem Key.Matches.check {kind : KeyKind} {key key' : Key kind} (h : key.Matches g.id id' key') :
    (g.withId id').check key' = g.check key := by
  obtain ⟨graph, index⟩ := key
  obtain ⟨graph', index'⟩ := key'
  obtain ⟨howner, rfl⟩ := h
  unfold Digraph.check
  by_cases hgraph : graph = g.id
  · rw [if_pos hgraph, if_pos (howner.mp hgraph)]
    rfl
  · rw [if_neg hgraph, if_neg (fun h => hgraph (howner.mpr h))]
    rfl

/-- The maps of a configuration. -/
structure Maps (w : Width) (α : Type) (n : Nat) where
  lower : Option (ArcMap (Word w))
  upper : Option (ArcMap (Word w))
  cost : Option (ArcMap α)
  supply : Supply n w

namespace Maps

/-- The configuration of a graph with given maps. -/
@[reducible] def on (g : Digraph) (maps : Maps w α g.nodeCount) : Configuration w α where
  graph := g
  lower := maps.lower
  upper := maps.upper
  cost := maps.cost
  supply := maps.supply

/-- Supplies that read alike. -/
inductive SuppliesAlike (g : Digraph) (id' : GraphId) :
    Supply g.nodeCount w → Supply g.nodeCount w → Prop
  | zero : SuppliesAlike g id' .zero .zero
  | map {supply supply' : NodeMap (Word w)} (h : supply.Matches g id' supply') :
      SuppliesAlike g id' (.map supply) (.map supply')
  | single (source target : Fin g.nodeCount) (amount : Word w) :
      SuppliesAlike g id' (.single source target amount) (.single source target amount)

/-- Maps of a graph, and maps of the same graph under another identity, that read alike. -/
structure Alike (g : Digraph) (id' : GraphId) (maps maps' : Maps w α g.nodeCount) : Prop where
  lower : Option.Rel (KeyedMap.Matches g id') maps.lower maps'.lower
  upper : Option.Rel (KeyedMap.Matches g id') maps.upper maps'.upper
  cost : Option.Rel (KeyedMap.Matches g id') maps.cost maps'.cost
  supply : SuppliesAlike g id' maps.supply maps'.supply

variable {maps maps' : Maps w α g.nodeCount}

namespace Alike

theorem lowerAt (h : maps.Alike g id' maps') :
    (maps'.on (g.withId id')).lowerAt = (maps.on g).lowerAt := by
  obtain ⟨lower, upper, cost, supply⟩ := maps
  obtain ⟨lower', upper', cost', supply'⟩ := maps'
  obtain ⟨hlower, -, -, -⟩ := h
  funext a
  cases hlower with
  | none => rfl
  | some h => exact congrArg Amount.ofWord (h.valueAt a a.isLt)

theorem upperAt (h : maps.Alike g id' maps') :
    (maps'.on (g.withId id')).upperAt = (maps.on g).upperAt := by
  obtain ⟨lower, upper, cost, supply⟩ := maps
  obtain ⟨lower', upper', cost', supply'⟩ := maps'
  obtain ⟨-, hupper, -, -⟩ := h
  funext a
  cases hupper with
  | none => rfl
  | some h => exact congrArg Amount.capacity? (h.valueAt a a.isLt)

theorem supplies (h : maps.Alike g id' maps') :
    (maps'.on (g.withId id')).supplies = (maps.on g).supplies := by
  obtain ⟨lower, upper, cost, supply⟩ := maps
  obtain ⟨lower', upper', cost', supply'⟩ := maps'
  obtain ⟨-, -, -, hsupply⟩ := h
  cases hsupply with
  | zero => rfl
  | map h =>
      have hvalues := funext fun v : Fin g.nodeCount => congrArg Amount.ofWord (h.valueAt v v.isLt)
      exact congrArg (fun read => Except.ok (Table.ofFn read)) hvalues
  | single source target amount => rfl

theorem spread (h : maps.Alike g id' maps') :
    (maps'.on (g.withId id')).spread = (maps.on g).spread := by
  funext a
  unfold Configuration.spread
  rw [h.upperAt, h.lowerAt]

theorem shiftedSupplies (h : maps.Alike g id' maps') :
    (maps'.on (g.withId id')).shiftedSupplies = (maps.on g).shiftedSupplies := by
  have htake : (maps'.on (g.withId id')).takeOut = (maps.on g).takeOut := by
    funext supply a
    unfold Configuration.takeOut
    rw [h.upperAt, h.lowerAt]
    rfl
  funext supply
  unfold Configuration.shiftedSupplies
  rw [htake]
  rfl

theorem madeUpCapacity (h : maps.Alike g id' maps') :
    (maps'.on (g.withId id')).madeUpCapacity = (maps.on g).madeUpCapacity := by
  funext supply
  unfold Configuration.madeUpCapacity
  rw [h.spread]
  rfl

variable [Cost α]

theorem costAt (h : maps.Alike g id' maps') {i : Nat} (hi : i < g.arcCount) :
    (maps'.on (g.withId id')).costAt i = (maps.on g).costAt i := by
  obtain ⟨lower, upper, cost, supply⟩ := maps
  obtain ⟨lower', upper', cost', supply'⟩ := maps'
  obtain ⟨-, -, hcost, -⟩ := h
  cases hcost with
  | none => rfl
  | some h => exact h.valueAt i hi

/-- The costs that the engines compute with. -/
theorem widenedCosts (h : maps.Alike g id' maps') :
    (fun a : Fin (maps'.on (g.withId id')).arcs =>
      Cost.widen ((maps'.on (g.withId id')).costAt a)) =
        fun a : Fin (maps.on g).arcs => Cost.widen ((maps.on g).costAt a) :=
  funext fun a => congrArg Cost.widen (h.costAt a.isLt)

theorem wideCosts (h : maps.Alike g id' maps') :
    (maps'.on (g.withId id')).wideCosts = (maps.on g).wideCosts := by
  unfold Configuration.wideCosts
  rw [h.widenedCosts]
  rfl

theorem costed (h : maps.Alike g id' maps') :
    (maps'.on (g.withId id')).costed = (maps.on g).costed := by
  unfold Configuration.costed
  rw [h.widenedCosts]
  rfl

omit [Cost α] in
theorem uncapped (h : maps.Alike g id' maps') :
    (maps'.on (g.withId id')).uncapped = (maps.on g).uncapped := by
  unfold Configuration.uncapped
  rw [h.spread]
  rfl

theorem hasUnboundedCycle (h : maps.Alike g id' maps') :
    (maps'.on (g.withId id')).hasUnboundedCycle = (maps.on g).hasUnboundedCycle := by
  funext tolerance
  have hrun : BellmanFord.run (maps'.on (g.withId id')).costed tolerance
      (maps'.on (g.withId id')).uncapped =
        BellmanFord.run (maps.on g).costed tolerance (maps.on g).uncapped := by
    rw [h.costed, h.uncapped]
    rfl
  unfold Configuration.hasUnboundedCycle
  rw [hrun]
  cases BellmanFord.run (maps.on g).costed tolerance (maps.on g).uncapped <;> rfl

theorem costTolerance (h : maps.Alike g id' maps') :
    (maps'.on (g.withId id')).costTolerance = (maps.on g).costTolerance := by
  unfold Configuration.costTolerance
  rw [h.wideCosts]
  rfl

/-- What is computed from the costs. -/
theorem costOperations (h : maps.Alike g id' maps') :
    (maps'.on (g.withId id')).costOperations = (maps.on g).costOperations := by
  unfold Configuration.costOperations
  rw [h.wideCosts, h.costed, h.costTolerance, h.uncapped]
  rfl

theorem toProblem (h : maps.Alike g id' maps') :
    (maps'.on (g.withId id')).toProblem = (maps.on g).toProblem := by
  funext supply madeUp
  unfold Configuration.toProblem
  rw [h.wideCosts, h.spread, h.lowerAt, h.hasUnboundedCycle, h.costTolerance]
  exact rfl

/-- The finite problem is the same, and so is what is reported while it is made. -/
theorem prepare (h : maps.Alike g id' maps') :
    (maps'.on (g.withId id')).prepare = (maps.on g).prepare := by
  unfold Configuration.prepare
  rw [h.supplies, h.shiftedSupplies, h.madeUpCapacity, h.toProblem, h.costOperations]
  refine congrArg (liftM (maps.on g).supplies >>= ·) (funext fun supply => ?_)
  cases (maps.on g).shiftedSupplies supply with
  | error obstacle => cases obstacle <;> rfl
  | ok supply => rfl

theorem solve (h : maps.Alike g id' maps') (fuel : Nat) (method : Method) :
    (maps'.on (g.withId id')).solve fuel method = (maps.on g).solve fuel method := by
  unfold Configuration.solve
  rw [h.prepare]
  refine congrArg ((maps.on g).prepare >>= ·) (funext fun p => ?_)
  cases p <;> rfl

end Alike

end Maps

namespace Solver

/-! ## Matching requests -/

/-- Changes that ask for the same, each in terms of its graph. -/
inductive Change.Matches (g : Digraph) (id' : GraphId) : Change w α → Change w α → Prop
  | cost {map map' : ArcMap α} (h : map.Matches g id' map') : Matches g id' (.cost map) (.cost map')
  | lower {map map' : ArcMap (Word w)} (h : map.Matches g id' map') :
      Matches g id' (.lower map) (.lower map')
  | upper {map map' : ArcMap (Word w)} (h : map.Matches g id' map') :
      Matches g id' (.upper map) (.upper map')
  | supply {map map' : NodeMap (Word w)} (h : map.Matches g id' map') :
      Matches g id' (.supply map) (.supply map')
  | singleSupply {source source' target target' : Node} (amount : Word w)
      (hsource : source.Matches g.id id' source') (htarget : target.Matches g.id id' target') :
      Matches g id' (.singleSupply source target amount) (.singleSupply source' target' amount)
  | reset : Matches g id' .reset .reset

/-- Queries that ask for the same. -/
inductive Query.Matches (id id' : GraphId) : Query → Query → Prop
  | verdict : Matches id id' .verdict .verdict
  | solution : Matches id id' .solution .solution
  | flow {arc arc' : Arc} (h : arc.Matches id id' arc') : Matches id id' (.flow arc) (.flow arc')
  | flowMap : Matches id id' .flowMap .flowMap
  | potential {node node' : Node} (h : node.Matches id id' node') :
      Matches id id' (.potential node) (.potential node')
  | totalCost : Matches id id' .totalCost .totalCost

/-- Requests that ask for the same. -/
inductive Request.Matches (g : Digraph) (id' : GraphId) : Request w α → Request w α → Prop
  | change {change change' : Change w α} (h : change.Matches g id' change') :
      Matches g id' (.change change) (.change change')
  | choose (method : Method) : Matches g id' (.choose method) (.choose method)
  | run (fuel : Nat) : Matches g id' (.run fuel) (.run fuel)
  | look {query query' : Query} (h : query.Matches g.id id' query') :
      Matches g id' (.look query) (.look query')

/-- Two changes are refused for the same cause, or make configurations that read alike. -/
def Change.AlikeAt (change change' : Change w α) (maps maps' : Maps w α g.nodeCount)
    (id' : GraphId) : Prop :=
  (∃ cause, change.apply (maps.on g) = .error cause ∧
    change'.apply (maps'.on (g.withId id')) = .error cause) ∨
  ∃ new new' : Maps w α g.nodeCount, new.Alike g id' new' ∧
    change.apply (maps.on g) = .ok (new.on g) ∧
    change'.apply (maps'.on (g.withId id')) = .ok (new'.on (g.withId id'))

section Changes

variable {change change' : Change w α} {maps maps' : Maps w α g.nodeCount}

/-- A change that takes in a map, if it is one of the graph. -/
theorem Change.alikeAt_of_owns {kind : KeyKind} {β : Type} {map map' : KeyedMap kind β}
    (h : map.Matches g id' map') (new new' : Maps w α g.nodeCount) (hnew : new.Alike g id' new')
    (hchange : change.apply (maps.on g) = do
      (maps.on g).owns map
      return new.on g)
    (hchange' : change'.apply (maps'.on (g.withId id')) = do
      (maps'.on (g.withId id')).owns map'
      return new'.on (g.withId id')) : change.AlikeAt change' maps maps' id' := by
  unfold Configuration.owns at hchange hchange'
  by_cases howner : map.graph = g.id
  · rw [if_pos howner] at hchange
    rw [if_pos (h.owner.mp howner)] at hchange'
    exact .inr ⟨new, new', hnew, hchange, hchange'⟩
  · rw [if_neg howner] at hchange
    rw [if_neg fun howner' => howner (h.owner.mpr howner')] at hchange'
    exact .inl ⟨_, hchange, hchange'⟩

theorem Change.Matches.alikeAt (h : change.Matches g id' change') (hmaps : maps.Alike g id' maps') :
    change.AlikeAt change' maps maps' id' := by
  obtain ⟨hlower, hupper, hcost, hsupply⟩ := hmaps
  cases h with
  | @cost map map' h =>
      exact alikeAt_of_owns h { maps with cost := some map } { maps' with cost := some map' }
        ⟨hlower, hupper, .some h, hsupply⟩ rfl rfl
  | @lower map map' h =>
      exact alikeAt_of_owns h { maps with lower := some map } { maps' with lower := some map' }
        ⟨.some h, hupper, hcost, hsupply⟩ rfl rfl
  | @upper map map' h =>
      exact alikeAt_of_owns h { maps with upper := some map } { maps' with upper := some map' }
        ⟨hlower, .some h, hcost, hsupply⟩ rfl rfl
  | @supply map map' h =>
      exact alikeAt_of_owns h { maps with supply := .map map } { maps' with supply := .map map' }
        ⟨hlower, hupper, hcost, .map h⟩ rfl rfl
  | @singleSupply source source' target target' amount hsource htarget =>
      unfold AlikeAt Change.apply Configuration.setSingleSupply
      dsimp only
      rw [hsource.check, htarget.check]
      cases g.check source with
      | error cause => exact .inl ⟨cause, rfl, rfl⟩
      | ok u =>
          cases g.check target with
          | error cause => exact .inl ⟨cause, rfl, rfl⟩
          | ok v =>
              exact .inr ⟨{ maps with supply := .single u v amount },
                { maps' with supply := .single u v amount },
                ⟨hlower, hupper, hcost, .single u v amount⟩, rfl, rfl⟩
  | reset =>
      let none : Maps w α g.nodeCount := ⟨.none, .none, .none, .zero⟩
      exact .inr ⟨none, none, ⟨.none, .none, .none, .zero⟩, rfl, rfl⟩

end Changes

/-! ## Solvers -/

/-- Solvers that are configured alike, with the same method and the same solution. -/
structure Alike (g : Digraph) (id' : GraphId) (s s' : Solver w α) : Prop where
  config : ∃ maps maps' : Maps w α g.nodeCount, maps.Alike g id' maps' ∧
    s.config = maps.on g ∧ s'.config = maps'.on (g.withId id')
  method : s'.method = s.method
  solution : s'.solution = s.solution

theorem alike_ofGraph (method : Method) (g : Digraph) (id' : GraphId) :
    Alike g id' (ofGraph method g : Solver w α) (ofGraph method (g.withId id')) where
  config := ⟨⟨none, none, none, .zero⟩, ⟨none, none, none, .zero⟩, ⟨.none, .none, .none, .zero⟩,
    rfl, rfl⟩
  method := rfl
  solution := rfl

section Alike

variable {s s' : Solver w α} (h : Alike g id' s s')
include h

theorem Alike.flow {arc arc' : Arc} (harc : arc.Matches g.id id' arc') :
    s'.flow arc' = s.flow arc := by
  obtain ⟨⟨maps, maps', -, hconfig, hconfig'⟩, -, hsolution⟩ := h
  obtain ⟨config, method, solution⟩ := s
  obtain ⟨config', method', solution'⟩ := s'
  cases hconfig
  cases hconfig'
  cases hsolution
  unfold Solver.flow
  rw [harc.check]
  rfl

theorem Alike.potential {node node' : Node} (hnode : node.Matches g.id id' node') :
    s'.potential node' = s.potential node := by
  obtain ⟨⟨maps, maps', -, hconfig, hconfig'⟩, -, hsolution⟩ := h
  obtain ⟨config, method, solution⟩ := s
  obtain ⟨config', method', solution'⟩ := s'
  cases hconfig
  cases hconfig'
  cases hsolution
  unfold Solver.potential
  rw [hnode.check]
  rfl

variable [Cost α]

/-- The same run: it reports the same, ends the same, and is answered the same. -/
theorem Alike.solve (fuel : Nat) : s'.config.solve fuel s'.method = s.config.solve fuel s.method := by
  obtain ⟨⟨maps, maps', hmaps, hconfig, hconfig'⟩, hmethod, -⟩ := h
  rw [hconfig, hconfig', hmethod, hmaps.solve]

theorem Alike.answer_run (fuel : Nat) :
    (Request.run fuel).answer s' = (Request.run fuel).answer s := by
  have hsizes : s'.config.nodes = s.config.nodes ∧ s'.config.arcs = s.config.arcs := by
    obtain ⟨⟨maps, maps', -, hconfig, hconfig'⟩, -, -⟩ := h
    rw [hconfig, hconfig']
    exact ⟨rfl, rfl⟩
  show ((run fuel).run s').1 = ((run fuel).run s).1
  rw [run_eq, run_eq, h.solve, hsizes.1, hsizes.2]
  unfold algorithm
  rw [h.method]
  obtain ⟨events, fault | solution⟩ := s.config.solve fuel s.method <;> rfl

theorem Alike.run_change {change change' : Change w α} (hchange : change.Matches g id' change') :
    (Request.change change').answer s' = (Request.change change).answer s ∧
      Alike g id' (Request.after s (.change change)) (Request.after s' (.change change')) := by
  obtain ⟨⟨maps, maps', hmaps, hconfig, hconfig'⟩, hmethod, hsolution⟩ := h
  unfold Request.answer Request.after
  show (change'.action.run s').1 = (change.action.run s).1 ∧
    Alike g id' (change.action.run s).2 (change'.action.run s').2
  rw [Change.action_eq, Change.action_eq, run_reconfigure, run_reconfigure, hconfig, hconfig']
  rcases hchange.alikeAt hmaps with ⟨cause, hc, hc'⟩ | ⟨new, new', hnew, hc, hc'⟩
  · rw [hc, hc']
    exact ⟨rfl, ⟨maps, maps', hmaps, hconfig, hconfig'⟩, hmethod, hsolution⟩
  · rw [hc, hc']
    exact ⟨rfl, ⟨new, new', hnew, rfl, rfl⟩, hmethod, rfl⟩

/-- Solvers that are alike stay alike. -/
theorem Alike.after {request request' : Request w α} (hrequest : request.Matches g id' request') :
    Alike g id' (Request.after s request) (Request.after s' request') := by
  cases hrequest with
  | change hchange => exact (h.run_change hchange).2
  | choose method => exact ⟨h.config, rfl, h.solution⟩
  | run fuel =>
      rw [after_run, after_run, h.solve]
      exact ⟨h.config, h.method, rfl⟩
  | look hquery => exact h

theorem Alike.afterAll {requests requests' : List (Request w α)}
    (hrequests : List.Forall₂ (Request.Matches g id') requests requests') :
    Alike g id' (s.afterAll requests) (s'.afterAll requests') := by
  induction hrequests generalizing s s' with
  | nil => exact h
  | cons hrequest hrest ih => exact ih (h.after hrequest)

/-- The total cost is summed up in the same order, of the same terms. -/
theorem Alike.totalCost (hsize : ∀ flows potentials, s.solution = some (.optimal flows potentials) →
    flows.size = g.arcCount) : s'.totalCost = s.totalCost := by
  obtain ⟨⟨maps, maps', hmaps, hconfig, hconfig'⟩, -, hsolution⟩ := h
  have hoptimal : s'.optimal = s.optimal := by
    unfold optimal
    rw [hsolution]
  unfold Solver.totalCost
  rw [hoptimal]
  cases hs : s.optimal with
  | error cause => rfl
  | ok found =>
      obtain ⟨flows, potentials⟩ := found
      have hflows : flows.size = g.arcCount := by
        unfold optimal at hs
        split at hs
        · rename_i hsolved
          cases hs
          exact hsize _ _ hsolved
        · cases hs
      apply congrArg fun sum : Except Error (Cost.Wide α) =>
        sum >>= fun total => pure (Cost.narrow total)
      apply foldlM_congr
      rintro ⟨flow, a⟩ hmem sum
      have ha : a < g.arcCount := by
        have hlt := (List.mem_zipIdx hmem).2.1
        rwa [Nat.zero_add, Array.length_toList, hflows] at hlt
      dsimp only
      rw [hconfig, hconfig', hmaps.costAt ha]

end Alike

/-! ## Answers -/

variable [Cost α] {method : Method} {requests requests' : List (Request w α)}

/-- Whatever two solvers are asked next, each in terms of its graph, they answer the same. -/
structure SameAnswers (g : Digraph) (id' : GraphId) (s s' : Solver w α) : Prop where
  change : ∀ change change' : Change w α, change.Matches g id' change' →
    (Request.change change').answer s' = (Request.change change).answer s
  /-- The verdict or the refusal, and all that is reported. -/
  run : ∀ fuel, (Request.run fuel).answer s' = (Request.run fuel).answer s
  verdict : s'.verdict = s.verdict
  /-- The flows and the potentials by number. -/
  solution : s'.solution = s.solution
  flow : ∀ arc arc' : Arc, arc.Matches g.id id' arc' → s'.flow arc' = s.flow arc
  flowMap : ∀ arc arc' : Arc, arc.Matches g.id id' arc' → g.Has arc →
    (s'.flowMap >>= (·.get arc')) = (s.flowMap >>= (·.get arc))
  potential : ∀ node node' : Node, node.Matches g.id id' node' →
    s'.potential node' = s.potential node
  totalCost : s'.totalCost = s.totalCost

/-- The flow map of a solver that was made by requests reads as the flows, arc by arc. -/
theorem get_flowMap_made {arc : Arc} (harc : g.Has arc) :
    ((made method g requests : Solver w α).flowMap >>= (·.get arc)) =
      (made method g requests).flow arc := by
  have hgraph : (made method g requests : Solver w α).config.graph = g := by
    rw [(show (made method g requests).config = _ from
      (configured_afterAll method g requests).config)]
    rfl
  have harc' : (made method g requests : Solver w α).config.graph.Has arc := by
    rw [hgraph]
    exact harc
  by_cases hoptimal : ∃ flows potentials,
      (made method g requests).solution = some (.optimal flows potentials)
  · obtain ⟨flows, potentials, hsolution⟩ := hoptimal
    obtain ⟨map, hmap, -, hget⟩ := (solved_of_made hsolution).flowMap
    rw [hmap]
    exact hget arc harc'
  · have hrefused := notSolved fun flows potentials h => hoptimal ⟨flows, potentials, h⟩
    rw [hrefused.flowMap, hrefused.flow arc harc']
    rfl

/-- Solvers of the same graph under two identities that were asked the same answer the same. -/
theorem sameAnswers_made (hrequests : List.Forall₂ (Request.Matches g id') requests requests') :
    SameAnswers g id' (made method g requests) (made method (g.withId id') requests') := by
  have h : Alike g id' (made method g requests) (made method (g.withId id') requests') :=
    (alike_ofGraph method g id').afterAll hrequests
  constructor
  · exact fun _ _ hchange => (h.run_change hchange).1
  · exact h.answer_run
  · unfold verdict
    rw [h.solution]
  · exact h.solution
  · exact fun _ _ => h.flow
  · intro arc arc' hmatch harc
    have harc' : (g.withId id').Has arc' :=
      ⟨hmatch.owner.mp harc.1, by rw [hmatch.index]; exact harc.2⟩
    rw [get_flowMap_made harc, get_flowMap_made harc', h.flow hmatch]
  · exact fun _ _ => h.potential
  · apply h.totalCost
    intro flows potentials hsolution
    obtain ⟨fuel, before, after, hlast⟩ := solution_iff_lastRun.mp hsolution
    exact (Configuration.sizes hlast.solves).1

end Solver

end NetworkFlow
