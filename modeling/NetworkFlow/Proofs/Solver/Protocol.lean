import NetworkFlow.Proofs.Solver.Requests

/-!
# The protocol of a solver

A solver keeps at most the solution of its last run, and only as long as nothing that it was asked
after that run invalidates it. So a solution is always one of the problem that is configured, even
where a query reads the configuration again: the total cost is computed with the costs that are
configured when it is asked for, and these are the costs of the run.

The invariant is `Configured`: the configuration is a function of the accepted changes alone. A
request that does not invalidate a solution then leaves both the configuration and the solution
(`afterAll_of_untouched`), and one that does leaves a solution only if it is a run.

## Main results

* `KeyedMap.exists_foldlM_set`: a map that is filled key by key holds what it was filled with.
* `solution_iff_lastRun`: the solution that is kept is the one of the last run.
* `follows_protocol`: what a solver keeps, answers and refuses, whatever it was asked before.
-/

namespace NetworkFlow

/-- A map that is filled with values for different keys holds them. -/
theorem KeyedMap.exists_foldlM_set {kind : KeyKind} {β : Type} (m : KeyedMap kind β)
    (entries : List (Key kind × β)) (howned : ∀ e ∈ entries, e.1.graph = m.graph)
    (hnodup : (entries.map Prod.fst).Nodup) :
    ∃ m', entries.foldlM (fun map (key, value) => map.set key value) m = .ok m' ∧
      m'.graph = m.graph ∧ ∀ e ∈ entries, m'.get e.1 = .ok e.2 := by
  induction entries using List.reverseRecOn with
  | nil => exact ⟨m, rfl, rfl, by simp⟩
  | append_singleton entries last ih =>
      obtain ⟨key, value⟩ := last
      simp only [List.map_append, List.map_cons, List.map_nil, List.nodup_append,
        List.mem_singleton, forall_eq] at hnodup
      obtain ⟨hnodup, -, hfresh⟩ := hnodup
      obtain ⟨m', hfold, hgraph, hget⟩ :=
        ih (fun e he => howned e (List.mem_append_left _ he)) hnodup
      have hkey : key.graph = m'.graph :=
        (howned (key, value) (List.mem_append_right _ (List.mem_singleton_self _))).trans hgraph.symm
      have hset : m'.set key value = .ok (m'.setAt key.index value) := if_pos hkey
      refine ⟨m'.setAt key.index value, ?_, hgraph, ?_⟩
      · rw [List.foldlM_append, hfold]
        show (m'.set key value >>= pure) = _
        rw [hset]
        rfl
      · intro e he
        rcases List.mem_append.mp he with he | he
        · -- an earlier key is another one, so it has another number
          have hold := hget e he
          unfold get at hold ⊢
          split at hold
          · rename_i howner
            have hne : key.index ≠ e.1.index := by
              intro h
              apply hfresh e.1 (List.mem_map_of_mem he)
              cases hkey' : e.1
              cases key
              simp_all
            rw [if_pos (show e.1.graph = (m'.setAt key.index value).graph from howner),
              m'.valueAt_set_of_ne value hne]
            exact hold
          · cases hold
        · rw [List.mem_singleton] at he
          subst he
          unfold get
          rw [if_pos (show key.graph = (m'.setAt key.index value).graph from hkey),
            m'.valueAt_set_self]

namespace Solver

variable {w : Width} {α : Type} {s : Solver w α} {flows : Array (Word w)} {potentials : Array α}

/-! ## Queries -/

/-- What the queries are answered with where the last run found an optimum. -/
structure Solved [Cost α] (s : Solver w α) (flows : Array (Word w)) (potentials : Array α) : Prop where
  flow : ∀ arc, s.config.graph.Has arc → ∃ x, flows[arc.index]? = some x ∧ s.flow arc = .ok x
  flowMap : ∃ map, s.flowMap = .ok map ∧ map.graph = s.config.graph.id ∧
    ∀ arc, s.config.graph.Has arc → map.get arc = s.flow arc
  potential : ∀ node, s.config.graph.Has node →
    ∃ x, potentials[node.index]? = some x ∧ s.potential node = .ok x
  totalCost : ∀ cause, s.totalCost = .error cause → cause = .arithmeticOverflow

/-- What the queries are answered with where it did not, or where there is no solution. -/
structure NotSolved [Cost α] (s : Solver w α) : Prop where
  flow : ∀ arc, s.config.graph.Has arc → s.flow arc = .error .notSolved
  flowMap : s.flowMap = .error .notSolved
  potential : ∀ node, s.config.graph.Has node → s.potential node = .error .notSolved
  totalCost : s.totalCost = .error .notSolved

/-- The queries that read the flows are refused without an optimal solution. -/
theorem notSolved [Cost α] (h : ∀ flows potentials, s.solution ≠ some (.optimal flows potentials)) :
    s.NotSolved := by
  have hoptimal : s.optimal = .error .notSolved := by
    unfold optimal
    split
    · rename_i hsolution
      exact absurd hsolution (h _ _)
    · rfl
  constructor
  · intro arc harc
    unfold flow
    rw [Digraph.check_of_has harc, hoptimal]
    rfl
  · unfold flowMap
    rw [hoptimal]
    rfl
  · intro node hnode
    unfold potential
    rw [Digraph.check_of_has hnode, hoptimal]
    rfl
  · unfold totalCost
    rw [hoptimal]
    rfl

theorem elementAt_of_lt {β : Type} {xs : Array β} {index : Nat} (h : index < xs.size) :
    elementAt xs index = .ok xs[index] := by
  unfold elementAt
  rw [Array.getElem?_eq_getElem h]

theorem flow_of_optimal (hsolution : s.solution = some (.optimal flows potentials))
    {arc : Arc} (harc : s.config.graph.Has arc) (hlt : arc.index < flows.size) :
    s.flow arc = .ok flows[arc.index] := by
  unfold flow optimal
  rw [Digraph.check_of_has harc, hsolution]
  exact elementAt_of_lt hlt

/-- The flow map holds the flows. -/
theorem flowMap_of_optimal (hsolution : s.solution = some (.optimal flows potentials))
    (hsize : flows.size = s.config.graph.arcCount) :
    ∃ map, s.flowMap = .ok map ∧ map.graph = s.config.graph.id ∧
      ∀ arc, s.config.graph.Has arc → map.get arc = s.flow arc := by
  have hlength : (s.config.graph.keys .arc).length = flows.toList.length := by
    simp [Digraph.keys, Digraph.count, hsize]
  have hfst : ((s.config.graph.keys .arc).zip flows.toList).map Prod.fst =
      s.config.graph.keys .arc := List.map_fst_zip hlength.le
  obtain ⟨map, hfold, hgraph, hget⟩ := KeyedMap.exists_foldlM_set
    (KeyedMap.ofGraph s.config.graph .arc default) ((s.config.graph.keys .arc).zip flows.toList)
    (fun e he => (Digraph.mem_keys.mp (List.of_mem_zip he).1).1) (by
      rw [hfst]
      exact List.nodup_range.map fun i j h => congrArg Key.index h)
  refine ⟨map, ?_, hgraph, ?_⟩
  · unfold flowMap optimal
    rw [hsolution]
    exact hfold
  · intro arc harc
    rw [flow_of_optimal hsolution harc (hsize ▸ harc.2)]
    have hlt : arc.index < ((s.config.graph.keys .arc).zip flows.toList).length := by
      rw [List.length_zip, ← hlength, Nat.min_self]
      simpa [Digraph.keys] using harc.2
    have hmem := hget _ (List.getElem_mem hlt)
    rw [List.getElem_zip] at hmem
    simp only [Digraph.keys, List.getElem_map, List.getElem_range, Array.getElem_toList] at hmem
    obtain ⟨graph, index⟩ := arc
    cases harc.1
    exact hmem

theorem potential_of_optimal (hsolution : s.solution = some (.optimal flows potentials))
    {node : Node} (hnode : s.config.graph.Has node) (hlt : node.index < potentials.size) :
    s.potential node = .ok potentials[node.index] := by
  unfold potential optimal
  rw [Digraph.check_of_has hnode, hsolution]
  exact elementAt_of_lt hlt

/-- The total cost of an optimal solution is refused for nothing but an overflow. -/
theorem totalCost_of_optimal [Cost α] (hsolution : s.solution = some (.optimal flows potentials))
    {cause : Error} (h : s.totalCost = .error cause) : cause = .arithmeticOverflow := by
  have hoptimal : s.optimal = .ok (flows, potentials) := by
    unfold optimal
    rw [hsolution]
  unfold totalCost at h
  rw [hoptimal] at h
  rcases bind_eq_error.mp h with h | ⟨_, -, h⟩
  · cases h
  rcases bind_eq_error.mp h with hfold | ⟨total, -, h⟩
  · obtain ⟨⟨flow, a⟩, -, sum, hadd⟩ := exists_error_of_foldlM hfold
    simp only [addCost] at hadd
    split at hadd
    · cases hadd
    · cases hadd
      rfl
  · cases h

theorem solved_of_optimal [Cost α] (hsolution : s.solution = some (.optimal flows potentials))
    (hflows : flows.size = s.config.graph.arcCount)
    (hpotentials : potentials.size = s.config.graph.nodeCount) : s.Solved flows potentials where
  flow _ harc := ⟨_, Array.getElem?_eq_getElem (hflows ▸ harc.2),
    flow_of_optimal hsolution harc (hflows ▸ harc.2)⟩
  flowMap := flowMap_of_optimal hsolution hflows
  potential _ hnode := ⟨_, Array.getElem?_eq_getElem (hpotentials ▸ hnode.2),
    potential_of_optimal hsolution hnode (hpotentials ▸ hnode.2)⟩
  totalCost _ := totalCost_of_optimal hsolution

/-! ## The last run -/

variable {method : Method} {g : Digraph} {requests before after : List (Request w α)} {fuel : Nat}
  {solution : Solution w α}

/-- A run and requests that do not invalidate its solution change nothing that is asked for. -/
theorem accepted_of_untouched (h : ∀ request ∈ after, ¬ request.Invalidates g) :
    accepted g (before ++ .run fuel :: after) = accepted g before := by
  have hnone : after.filterMap (Request.accepted g) = [] := by
    rw [List.filterMap_eq_nil_iff]
    intro request hrequest
    cases request with
    | change change => exact if_neg (h _ hrequest)
    | _ => rfl
  unfold accepted
  rw [List.filterMap_append, List.filterMap_cons, hnone]
  exact List.append_nil _

variable [Cost α]

/-- The solver of a graph after requests. -/
def made (method : Method) (g : Digraph) (requests : List (Request w α)) : Solver w α :=
  (ofGraph method g).afterAll requests

/-- What requests leave that do not invalidate a solution: the configuration, and the solution. -/
theorem afterAll_of_untouched {changes : List (Change w α)} (hconfig : s.config = asked g changes)
    (h : ∀ request ∈ after, ¬ request.Invalidates g) :
    (s.afterAll after).config = asked g changes ∧ (s.afterAll after).solution = s.solution := by
  induction after using List.reverseRecOn with
  | nil => exact ⟨hconfig, rfl⟩
  | append_singleton after request ih =>
      obtain ⟨hconfig', hsolution⟩ := ih fun r hr => h r (List.mem_append_left _ hr)
      obtain ⟨hlast, hlast'⟩ := after_of_not_invalidates hconfig'
        (h request (List.mem_append_right _ (List.mem_singleton_self _)))
      rw [afterAll_append]
      exact ⟨hlast.trans hconfig', hlast'.trans hsolution⟩

/-- The last run of a solver since its configuration was changed: what it found, and what was asked
before and after it. -/
structure LastRun (method : Method) (g : Digraph) (requests : List (Request w α)) (fuel : Nat)
    (solution : Solution w α) (before after : List (Request w α)) : Prop where
  requests_eq : requests = before ++ .run fuel :: after
  /-- No accepted change and no other run comes after it. -/
  untouched : ∀ request ∈ after, ¬ request.Invalidates g
  /-- It returned the verdict. -/
  returned : ((Request.run fuel).answer (made method g before)).outcome = .ok solution.verdict
  /-- It solved what is still configured, by the method in force when it was made. -/
  solves : ((asked g (accepted g requests)).solve fuel (methodAfter method before)).outcome =
    .ok solution
  /-- Every query is still answered as right after it. -/
  answers : ∀ query : Query,
    query.ask (made method g requests) = query.ask (made method g (before ++ [.run fuel]))

/-- A run that finds a solution, and after which nothing invalidates it, is the last run, and its
solution is the one that is kept. -/
theorem lastRun_of_untouched (hrequests : requests = before ++ .run fuel :: after)
    (huntouched : ∀ request ∈ after, ¬ request.Invalidates g)
    (hfound : ((asked g (accepted g before)).solve fuel (methodAfter method before)).outcome =
      .ok solution) :
    LastRun method g requests fuel solution before after ∧
      (made method g requests).solution = some solution := by
  obtain ⟨hconfig, hmethod⟩ : Configured method g before (made method g before) :=
    configured_afterAll method g before
  have hsolve : ((made method g before).config.solve fuel (made method g before).method).outcome =
      .ok solution := by
    rw [hconfig, hmethod]
    exact hfound
  have hrun : made method g (before ++ [.run fuel]) =
      { made method g before with solution := some solution } := by
    unfold made at hsolve ⊢
    rw [afterAll_append]
    show Request.after _ _ = _
    rw [after_run, hsolve]
    rfl
  have hmade : made method g requests = (made method g (before ++ [.run fuel])).afterAll after := by
    unfold made
    rw [hrequests, ← afterAll_append, List.append_assoc, List.singleton_append]
  have hconfigRun : (made method g (before ++ [.run fuel])).config =
      asked g (accepted g before) := by
    rw [hrun]
    exact hconfig
  obtain ⟨hconfig', hsolution'⟩ := afterAll_of_untouched hconfigRun huntouched
  rw [← hmade] at hconfig' hsolution'
  refine ⟨⟨hrequests, huntouched, ?_, ?_, fun query =>
    Query.ask_congr (hconfig'.trans hconfigRun.symm) hsolution' query⟩, ?_⟩
  · show ((run fuel).run _).1.outcome = _
    rw [outcome_run, hsolve]
    rfl
  · rw [hrequests, accepted_of_untouched huntouched]
    exact hfound
  · rw [hsolution', hrun]

/-- The solution that is kept is the one of the last run. -/
theorem solution_iff_lastRun : (made method g requests).solution = some solution ↔
    ∃ fuel before after, LastRun method g requests fuel solution before after := by
  constructor
  · intro h
    -- what has to be found is a run after which nothing invalidates its solution
    suffices ∃ fuel before after, requests = before ++ .run fuel :: after ∧
        (∀ request ∈ after, ¬ request.Invalidates g) ∧
        ((asked g (accepted g before)).solve fuel (methodAfter method before)).outcome =
          .ok solution by
      obtain ⟨fuel, before, after, hrequests, huntouched, hfound⟩ := this
      exact ⟨fuel, before, after, (lastRun_of_untouched hrequests huntouched hfound).1⟩
    induction requests using List.reverseRecOn with
    | nil => cases h
    | append_singleton requests last ih =>
        obtain ⟨hconfig, hmethod⟩ := configured_afterAll method g requests
        unfold made at h
        rw [afterAll_append] at h
        change (Request.after _ last).solution = _ at h
        by_cases hlast : last.Invalidates g
        · cases last with
          | change change =>
              rw [after_change hconfig hlast] at h
              cases h
          | run fuel =>
              rw [after_run, hconfig, hmethod] at h
              refine ⟨fuel, requests, [], rfl, by simp, ?_⟩
              exact ok_of_toOption h
          | choose method' => exact absurd hlast id
          | look query => exact absurd hlast id
        · rw [(after_of_not_invalidates hconfig hlast).2] at h
          obtain ⟨fuel, before, after, rfl, huntouched, hfound⟩ := ih h
          refine ⟨fuel, before, after ++ [last], by simp, ?_, hfound⟩
          intro request hrequest
          rcases List.mem_append.mp hrequest with hold | hnew
          · exact huntouched request hold
          · rw [List.mem_singleton.mp hnew]
            exact hlast
  · rintro ⟨fuel, before, after, hlast⟩
    have hfound := hlast.solves
    rw [hlast.requests_eq, accepted_of_untouched hlast.untouched] at hfound
    exact (lastRun_of_untouched hlast.requests_eq hlast.untouched hfound).2

/-! ## The protocol -/

/-- What holds of the solver of a graph after requests. -/
structure Protocol (method : Method) (g : Digraph) (requests : List (Request w α)) : Prop where
  /-- What is configured is what the accepted changes ask for. -/
  configured : Configured method g requests (made method g requests)
  /-- The solution that is kept is the one of the last run. -/
  solution_iff : ∀ solution, (made method g requests).solution = some solution ↔
    ∃ fuel before after, LastRun method g requests fuel solution before after
  solved : ∀ flows potentials,
    (made method g requests).solution = some (.optimal flows potentials) →
      (made method g requests).Solved flows potentials
  notSolved : (made method g requests).verdict ≠ some .optimal → (made method g requests).NotSolved
  /-- A run that fails leaves no solution. -/
  failed : ∀ fuel fault,
    ((Request.run fuel).answer (made method g requests)).outcome = .error fault →
      (made method g (requests ++ [.run fuel])).solution = none
  accepts : ∀ change : Change w α, change.Fits g →
    ((Request.change change).answer (made method g requests)).outcome = .ok ()
  /-- A change is refused for a key or a map of another graph, and leaves all as it is. -/
  refused : ∀ (change : Change w α) (fault : Fault),
    ((Request.change change).answer (made method g requests)).outcome = .error fault →
      ¬ change.Fits g ∧ (fault = .refused .foreignIdentity ∨ fault = .refused .indexOutOfRange) ∧
        made method g (requests ++ [.change change]) = made method g requests

theorem made_concat (requests : List (Request w α)) (request : Request w α) :
    made method g (requests ++ [request]) = Request.after (made method g requests) request :=
  afterAll_append _ _ _

theorem solved_of_made {flows : Array (Word w)} {potentials : Array α}
    (h : (made method g requests).solution = some (.optimal flows potentials)) :
    (made method g requests).Solved flows potentials := by
  obtain ⟨fuel, before, after, hlast⟩ := solution_iff_lastRun.mp h
  have hsizes := Configuration.sizes hlast.solves
  rw [← (configured_afterAll method g requests).config] at hsizes
  exact solved_of_optimal h hsizes.1 hsizes.2

theorem solution_of_failed_run {fault : Fault}
    (h : ((Request.run fuel).answer (made method g requests)).outcome = .error fault) :
    (made method g (requests ++ [.run fuel])).solution = none := by
  rw [made_concat, after_run]
  change ((run fuel).run _).1.outcome = _ at h
  rw [outcome_run] at h
  cases hsolve : ((made method g requests).config.solve fuel
      (made method g requests).method).outcome with
  | error fault => rfl
  | ok solution =>
      rw [hsolve] at h
      cases h

theorem outcome_change {change : Change w α} (hfits : change.Fits g) :
    ((Request.change change).answer (made method g requests)).outcome = .ok () := by
  show (change.action.run _).1.outcome = _
  rw [Change.action_eq, run_reconfigure, (show (made method g requests).config = _ from
    (configured_afterAll method g requests).config), apply_asked hfits]

/-- Whatever is asked of a solver, in whatever order, it follows the protocol. -/
theorem follows_protocol (method : Method) (g : Digraph) (requests : List (Request w α)) :
    Protocol method g requests where
  configured := configured_afterAll method g requests
  solution_iff _ := solution_iff_lastRun
  solved _ _ := solved_of_made
  notSolved hverdict := by
    apply notSolved
    intro flows potentials hsolution
    apply hverdict
    unfold verdict
    rw [hsolution]
    rfl
  failed _ _ := solution_of_failed_run
  accepts _ := outcome_change
  refused change fault hfault := by
    by_cases hfits : change.Fits g
    · rw [outcome_change hfits] at hfault
      cases hfault
    · obtain ⟨cause, hanswer, hcause, hafter⟩ :=
        run_change_of_not_fits (configured_afterAll method g requests).config hfits
      change ((Request.change change).answer ((ofGraph method g).afterAll requests)).outcome = _
        at hfault
      rw [hanswer] at hfault
      cases hfault
      refine ⟨hfits, ?_, (made_concat requests _).trans hafter⟩
      rcases hcause with rfl | rfl
      · exact .inl rfl
      · exact .inr rfl

end Solver

end NetworkFlow
