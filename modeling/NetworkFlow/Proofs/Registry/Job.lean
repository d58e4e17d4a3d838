import NetworkFlow.Proofs.Registry.Requests
import NetworkFlow.Proofs.RunningSums
import NetworkFlow.Proofs.Solver.Requests

/-!
# What a job works on and finds out

A job is a copy of a graph and of maps whose types and graphs are looked at only when it is executed.
What it asks for is a configuration of its graph (`RunJob.configuration`), unless a map is of another
type or of another graph, and what it finds out is the solution of that configuration.

A job whose maps are of its types and of its graph (`RunJob.WellTyped`) has a configuration, and
whatever arithmetic it computes in, an overflow is all that it is refused for.

## Main results

* `copyOf_of_copied`: what a snapshot copies.
* `outcome_solve`: a job finds out what solving its configuration does.
* `WellTyped.refusesOnly_result`: what a job with proper maps is refused for.
-/

namespace NetworkFlow

section Overflow

/-- Whatever the costs are computed in, an engine refuses nothing but an overflow. -/
theorem Method.refusesOnly_overflow {n m : Nat} {α : Type} [Scalar α] (method : Method) (fuel : Nat)
    (p : Problem n m α) : (method.solve fuel p).RefusesOnly (· = .arithmeticOverflow) := by
  cases method with
  | networkSimplex rule =>
      refine NetworkSimplex.refusesOnly_solve fun cause h => ?_
      unfold NetworkSimplex.Tableau.artificialCost at h
      split at h <;> cases h
      rfl
  | costScaling alpha =>
      have hfeasible : (feasibleFlow fuel p.amounts).RefusesOnly (· = .arithmeticOverflow) :=
        refusesOnly_feasibleFlow (fun _ => p.amounts.demand_error) fun _ => MaxFlow.run_error
      exact CostScaling.refusesOnly_solve hfeasible fun _ => CostScaling.scaledCosts_error
  | capacityScaling factor =>
      exact fun cause h => (CapacityScaling.refusesOnly_solve fuel p factor cause h).elim

variable {w : Width} {α : Type} [Cost α]

/-- Preparing and solving a configured problem refuses nothing but an overflow. -/
theorem Configuration.refusesOnly_overflow (c : Configuration w α) (fuel : Nat) (method : Method) :
    (c.solve fuel method).RefusesOnly (· = .arithmeticOverflow) := by
  refine Configuration.prepare_refuses.bind fun prepared _ => ?_
  cases prepared with
  | none => exact Logged.refusesOnly_of_ok rfl
  | some p => exact (method.refusesOnly_overflow fuel p).bind fun _ _ => Logged.refusesOnly_ofRun _

/-- An optimal solution has a flow for each arc. -/
theorem Configuration.size_flows {c : Configuration w α} {fuel : Nat} {method : Method}
    {solution : Solution w α} (h : (c.solve fuel method).outcome = .ok solution)
    (hoptimal : solution.verdict = .optimal) : solution.flows.size = c.arcs := by
  cases solution with
  | optimal flows potentials => exact (sizes h).1
  | infeasible | unbounded => cases hoptimal

end Overflow

namespace Registry

variable {r : Registry} {h : Handle} {record : SolverRecord} {job : RunJob}

/-- A map of a solver is copied if it is still a map over the right keys. -/
theorem solverMap_eq_some {kind : KeyKind} {map : Option Handle} {values : AnyMap kind} :
    r.solverMap kind map = .ok (some values) ↔
      ∃ m owner, map = some m ∧ r.object m >>= (·.map? kind) = .ok (owner, values) := by
  cases map with
  | none => simp [solverMap]
  | some m =>
      have hbind : (r.object m).bind (·.map? kind) = r.object m >>= (·.map? kind) := rfl
      simp only [solverMap, hbind]
      cases hfound : r.object m >>= (·.map? kind) with
      | error cause => simp [Except.mapError, Except.map, hfound]
      | ok found =>
          obtain ⟨owner, copied⟩ := found
          simp [Except.mapError, Except.map, hfound]

/-- What is copied for a run is what is under the handles of the solver. -/
structure CopyOf (r : Registry) (h : Handle) (record : SolverRecord) (job : RunJob) : Prop where
  solver : job.solver = h
  revision : job.revision = record.revision
  algorithm : job.algorithm = record.algorithm
  flowType : job.flowType = record.flowType
  costType : job.costType = record.costType
  graph : r.graph record.graph = .ok job.graph
  cost : r.solverMap .arc record.cost = .ok job.cost
  lower : r.solverMap .arc record.lower = .ok job.lower
  upper : r.solverMap .arc record.upper = .ok job.upper
  supply : r.solverMap .node record.supply = .ok job.supply

theorem copyOf_of_jobOf (hjob : r.jobOf h record = .ok job) : r.CopyOf h record job := by
  obtain ⟨graph, hgraph, hjob⟩ := bind_eq_ok.mp hjob
  obtain ⟨cost, hcost, hjob⟩ := bind_eq_ok.mp hjob
  obtain ⟨lower, hlower, hjob⟩ := bind_eq_ok.mp hjob
  obtain ⟨upper, hupper, hjob⟩ := bind_eq_ok.mp hjob
  obtain ⟨supply, hsupply, hjob⟩ := bind_eq_ok.mp hjob
  cases hjob
  have hgraph : r.graph record.graph = .ok graph := by
    unfold solverGraph at hgraph
    cases hfound : r.graph record.graph with
    | error cause =>
        rw [hfound] at hgraph
        cases hgraph
    | ok found =>
        rw [hfound] at hgraph
        cases hgraph
        rfl
  exact ⟨rfl, rfl, rfl, rfl, rfl, hgraph, hcost, hlower, hupper, hsupply⟩

/-- A snapshot copies what is under the handles of a solver that is alive. -/
theorem copyOf_of_copied (hjob : r.copied h = .ok job) :
    ∃ record, r.solver h = .ok record ∧ r.CopyOf h record job := by
  obtain ⟨record, hrecord, hjob⟩ := bind_eq_ok.mp hjob
  obtain ⟨h1, h2, h3, h4, h5, h6, h7, h8, h9, h10⟩ := copyOf_of_jobOf hjob
  exact ⟨record, hrecord, h1, h2, h3, h4, h5, h6, h7, h8, h9, h10⟩

end Registry

namespace RunJob

section Configured

variable {w : Width} {α : Type}

/-- A configuration with an optional map, read at its type. -/
def withMap {kind : KeyKind} {β : Type} (map : Option (AnyMap kind))
    (read : AnyMap kind → Except Error β)
    (use : Configuration w α → β → Except Error (Configuration w α)) (c : Configuration w α) :
    Except Error (Configuration w α) :=
  match map with
  | none => .ok c
  | some map => do use c (← read map)

/-- A configuration with the maps of a job. -/
def configured (job : RunJob) (w : Width) (t : ValueType) (c : Configuration w t.Value) :
    Except Error (Configuration w t.Value) := do
  let c ← withMap job.cost (·.ofType t) Configuration.setCost c
  let c ← withMap job.lower (·.ofWidth w) Configuration.setLower c
  let c ← withMap job.upper (·.ofWidth w) Configuration.setUpper c
  withMap job.supply (·.ofWidth w) Configuration.setSupply c

/-- What a job asks for. -/
def configuration (job : RunJob) (w : Width) : Except Error (Configuration w job.costType.Value) :=
  job.configured w job.costType { graph := job.graph }

/-- A map that is given to a solver without a solution goes into its configuration. -/
theorem outcome_useMap_bind {kind : KeyKind} {β γ : Type} {map : Option (AnyMap kind)}
    {read : AnyMap kind → Except Error β}
    {use : Configuration w α → β → Except Error (Configuration w α)}
    {next : Unit → Action (Solver w α) γ} {rest : Configuration w α → Logged γ} {s : Solver w α}
    (hs : s.solution = none)
    (hnext : ∀ c, ((next ()).run { s with config := c }).1.outcome = (rest c).outcome) :
    (((useMap map read fun b => Solver.reconfigure fun c => use c b) >>= next).run s).1.outcome =
      (Logged.ofExcept (withMap map read use s.config) >>= rest).outcome := by
  obtain ⟨config, method, solution⟩ := s
  cases hs
  cases map with
  | none => exact hnext config
  | some map =>
      simp only [useMap, withMap]
      cases read map with
      | error cause => rfl
      | ok b =>
          rw [Action.run_bind, Action.run_ok_bind, Solver.run_reconfigure]
          show _ = (Logged.ofExcept (use config b) >>= rest).outcome
          simp only
          cases use config b with
          | error cause => rfl
          | ok c => exact hnext c

/-- What is told of a solution. -/
def report (solution : Solution w α) : RunResult :=
  ⟨solution.verdict, solution.flows.map Amount.ofWord⟩

/-- A job finds out what solving its configuration does. -/
theorem outcome_solve (job : RunJob) (fuel : Nat) (w : Width) :
    (job.solve fuel w).outcome = (do
      let c ← Logged.ofExcept (job.configuration w)
      let solution ← c.solve fuel (.ofAlgorithm job.algorithm)
      return report solution : Logged RunResult).outcome := by
  have hlift : ∀ {β γ : Type} (x : Except Error β) (f : β → Except Error γ),
      Logged.ofExcept (x >>= f) = Logged.ofExcept x >>= fun b => Logged.ofExcept (f b) := by
    intro β γ x f
    cases x with
    | error cause => rfl
    | ok b =>
        show _ = pure b >>= _
        rw [pure_bind]
        rfl
  unfold solve runTyped configuration configured
  simp only [hlift, bind_assoc]
  refine outcome_useMap_bind rfl fun c => ?_
  refine outcome_useMap_bind rfl fun c => ?_
  refine outcome_useMap_bind rfl fun c => ?_
  refine outcome_useMap_bind rfl fun c => ?_
  rw [Action.run_bind, Solver.run_eq]
  simp only [Solver.ofGraph]
  generalize c.solve fuel (.ofAlgorithm job.algorithm) = solved
  obtain ⟨events, fault | solution⟩ := solved
  · rfl
  · rfl

/-- The width of the flows of a job. -/
def width? (job : RunJob) : Option Width :=
  match job.flowType with
  | .int => some .bits32
  | .long => some .bits64
  | .double => none

/-- A result is that of a solution of what the job asks for. -/
theorem exists_solution_of_result {job : RunJob} {fuel : Nat} {found : RunResult}
    (h : (job.result fuel).outcome = .ok found) :
    ∃ w c solution, job.width? = some w ∧ job.configuration w = .ok c ∧
      (c.solve fuel (.ofAlgorithm job.algorithm)).outcome = .ok solution ∧
      found = report solution := by
  have hsolve : ∀ w, (job.solve fuel w).outcome = .ok found → ∃ c solution,
      job.configuration w = .ok c ∧
      (c.solve fuel (.ofAlgorithm job.algorithm)).outcome = .ok solution ∧
      found = report solution := by
    intro w h
    rw [outcome_solve] at h
    obtain ⟨c, hc, h⟩ := Logged.outcome_bind_eq_ok.mp h
    obtain ⟨solution, hsolution, h⟩ := Logged.outcome_bind_eq_ok.mp h
    cases h
    exact ⟨c, solution, Logged.outcome_ofExcept_eq_ok.mp hc, hsolution, rfl⟩
  unfold RunJob.result at h
  unfold width?
  cases hflow : job.flowType with
  | int =>
      simp only [hflow] at h
      exact ⟨_, (hsolve .bits32 h).imp fun c => Exists.imp fun _ hc => ⟨rfl, hc⟩⟩
  | long =>
      simp only [hflow] at h
      exact ⟨_, (hsolve .bits64 h).imp fun c => Exists.imp fun _ hc => ⟨rfl, hc⟩⟩
  | double =>
      simp only [hflow] at h
      cases h

end Configured

section Graph

variable {w : Width} {α γ : Type} {kind : KeyKind}

/-- A map is used if it is a map over the graph of the configuration, which stays. -/
structure Accepts (use : Configuration w α → KeyedMap kind γ → Except Error (Configuration w α)) :
    Prop where
  graph : ∀ c b c', use c b = .ok c' → c'.graph = c.graph
  own : ∀ c b, b.graph = c.graph.id → ∃ c', use c b = .ok c'

variable {use : Configuration w α → KeyedMap kind γ → Except Error (Configuration w α)}

theorem accepts_of_owns (next : Configuration w α → KeyedMap kind γ → Configuration w α)
    (huse : ∀ c b, use c b = (do c.owns b; return next c b))
    (hnext : ∀ c b, (next c b).graph = c.graph) : Accepts use := by
  constructor
  · intro c b c' h
    rw [huse] at h
    obtain ⟨-, -, h⟩ := bind_eq_ok.mp h
    cases h
    exact hnext c b
  · intro c b hgraph
    refine ⟨next c b, ?_⟩
    rw [huse, Configuration.owns, if_pos hgraph]
    rfl

theorem accepts_setCost : Accepts (fun (c : Configuration w α) map => c.setCost map) :=
  accepts_of_owns (fun c map => { c with cost := some map }) (fun _ _ => rfl) fun _ _ => rfl

theorem accepts_setLower : Accepts (fun (c : Configuration w α) map => c.setLower map) :=
  accepts_of_owns (fun c map => { c with lower := some map }) (fun _ _ => rfl) fun _ _ => rfl

theorem accepts_setUpper : Accepts (fun (c : Configuration w α) map => c.setUpper map) :=
  accepts_of_owns (fun c map => { c with upper := some map }) (fun _ _ => rfl) fun _ _ => rfl

theorem accepts_setSupply : Accepts (fun (c : Configuration w α) map => c.setSupply map) :=
  accepts_of_owns (fun c map => { c with supply := .map map }) (fun _ _ => rfl) fun _ _ => rfl

variable {map : Option (AnyMap kind)} {read : AnyMap kind → Except Error (KeyedMap kind γ)}
  {c c' : Configuration w α}

theorem graph_of_withMap (huse : Accepts use) (h : withMap map read use c = .ok c') :
    c'.graph = c.graph := by
  cases map with
  | none =>
      cases h
      rfl
  | some values =>
      obtain ⟨b, -, h⟩ := bind_eq_ok.mp h
      exact huse.graph c b c' h

theorem exists_withMap (huse : Accepts use) (hread : ∀ values, map = some values →
    ∃ b, read values = .ok b ∧ b.graph = c.graph.id) : ∃ c', withMap map read use c = .ok c' := by
  cases map with
  | none => exact ⟨c, rfl⟩
  | some values =>
      obtain ⟨b, hb, hgraph⟩ := hread values rfl
      obtain ⟨c', hc'⟩ := huse.own c b hgraph
      exact ⟨c', bind_eq_ok.mpr ⟨b, hb, hc'⟩⟩

/-- A job asks for something on its own graph. -/
theorem graph_of_configuration {job : RunJob} {c : Configuration w job.costType.Value}
    (h : job.configuration w = .ok c) : c.graph = job.graph := by
  obtain ⟨c₁, hcost, h⟩ := bind_eq_ok.mp h
  obtain ⟨c₂, hlower, h⟩ := bind_eq_ok.mp h
  obtain ⟨c₃, hupper, hsupply⟩ := bind_eq_ok.mp h
  rw [graph_of_withMap accepts_setSupply hsupply, graph_of_withMap accepts_setUpper hupper,
    graph_of_withMap accepts_setLower hlower, graph_of_withMap accepts_setCost hcost]

end Graph

section WellTyped

/-- The maps of a job have its types and are maps over its graph. -/
structure WellTyped (job : RunJob) : Prop where
  flow : job.flowType ≠ .double
  cost : ∀ values, job.cost = some values →
    values.type = job.costType ∧ values.map.graph = job.graph.id
  lower : ∀ values, job.lower = some values →
    values.type = job.flowType ∧ values.map.graph = job.graph.id
  upper : ∀ values, job.upper = some values →
    values.type = job.flowType ∧ values.map.graph = job.graph.id
  supply : ∀ values, job.supply = some values →
    values.type = job.flowType ∧ values.map.graph = job.graph.id

variable {job : RunJob} {w : Width}

theorem exists_ofType {kind : KeyKind} {values : AnyMap kind} {t : ValueType}
    (ht : values.type = t) : ∃ b, values.ofType t = .ok b ∧ b.graph = values.map.graph := by
  subst ht
  exact ⟨values.map, dif_pos rfl, rfl⟩

theorem exists_ofWidth {kind : KeyKind} {values : AnyMap kind} (ht : values.type = job.flowType)
    (hw : job.width? = some w) : ∃ b, values.ofWidth w = .ok b ∧ b.graph = values.map.graph := by
  unfold width? at hw
  cases hflow : job.flowType with
  | int =>
      simp only [hflow, Option.some.injEq] at hw
      subst hw
      exact exists_ofType (t := .int) (ht.trans hflow)
  | long =>
      simp only [hflow, Option.some.injEq] at hw
      subst hw
      exact exists_ofType (t := .long) (ht.trans hflow)
  | double =>
      simp only [hflow] at hw
      cases hw

/-- A job with proper maps asks for something. -/
theorem WellTyped.exists_configuration (hjob : job.WellTyped) (hw : job.width? = some w) :
    ∃ c, job.configuration w = .ok c := by
  have hread : ∀ {kind : KeyKind} {values : AnyMap kind} {graph : Digraph}, graph = job.graph →
      values.type = job.flowType ∧ values.map.graph = job.graph.id →
        ∃ b, values.ofWidth w = .ok b ∧ b.graph = graph.id := by
    rintro kind values graph rfl ⟨htype, hgraph⟩
    obtain ⟨b, hb, hb'⟩ := exists_ofWidth htype hw
    exact ⟨b, hb, hb'.trans hgraph⟩
  have hread' : ∀ values, job.cost = some values →
      ∃ b, values.ofType job.costType = .ok b ∧ b.graph = job.graph.id := by
    intro values hvalues
    obtain ⟨htype, hgraph⟩ := hjob.cost values hvalues
    obtain ⟨b, hb, hb'⟩ := exists_ofType htype
    exact ⟨b, hb, hb'.trans hgraph⟩
  obtain ⟨c₁, hcost⟩ : ∃ c₁, withMap job.cost (·.ofType job.costType) Configuration.setCost
      ({ graph := job.graph } : Configuration w job.costType.Value) = .ok c₁ :=
    exists_withMap accepts_setCost hread'
  have hgraph₁ : c₁.graph = job.graph := graph_of_withMap accepts_setCost hcost
  obtain ⟨c₂, hlower⟩ : ∃ c₂, withMap job.lower (·.ofWidth w) Configuration.setLower c₁ = .ok c₂ :=
    exists_withMap accepts_setLower fun values hvalues => hread hgraph₁ (hjob.lower values hvalues)
  have hgraph₂ := (graph_of_withMap accepts_setLower hlower).trans hgraph₁
  obtain ⟨c₃, hupper⟩ : ∃ c₃, withMap job.upper (·.ofWidth w) Configuration.setUpper c₂ = .ok c₃ :=
    exists_withMap accepts_setUpper fun values hvalues => hread hgraph₂ (hjob.upper values hvalues)
  have hgraph₃ := (graph_of_withMap accepts_setUpper hupper).trans hgraph₂
  obtain ⟨c, hsupply⟩ : ∃ c, withMap job.supply (·.ofWidth w) Configuration.setSupply c₃ = .ok c :=
    exists_withMap accepts_setSupply fun values hvalues => hread hgraph₃ (hjob.supply values hvalues)
  exact ⟨c, bind_eq_ok.mpr ⟨c₁, hcost, bind_eq_ok.mpr ⟨c₂, hlower, bind_eq_ok.mpr
    ⟨c₃, hupper, hsupply⟩⟩⟩⟩

/-- A job with proper maps is refused for nothing but an overflow. -/
theorem WellTyped.refusesOnly_result (hjob : job.WellTyped) (fuel : Nat) :
    (job.result fuel).RefusesOnly (· = .arithmeticOverflow) := by
  have hsolve : ∀ w, job.width? = some w →
      (job.solve fuel w).RefusesOnly (· = .arithmeticOverflow) := by
    intro w hw cause hcause
    rw [outcome_solve] at hcause
    obtain ⟨c, hc⟩ := hjob.exists_configuration hw
    have hrest : (Logged.ofExcept (job.configuration w) >>= fun c =>
        c.solve fuel (.ofAlgorithm job.algorithm) >>= fun solution =>
          (return report solution : Logged RunResult)).RefusesOnly (· = .arithmeticOverflow) := by
      rw [hc]
      refine (Logged.refusesOnly_of_ok rfl).bind fun c _ => ?_
      exact (c.refusesOnly_overflow fuel _).bind fun _ _ => Logged.refusesOnly_of_ok rfl
    exact hrest cause hcause
  unfold RunJob.result
  unfold width? at hsolve
  cases hflow : job.flowType with
  | int => exact hsolve .bits32 (by rw [hflow])
  | long => exact hsolve .bits64 (by rw [hflow])
  | double => exact absurd hflow hjob.flow

end WellTyped

end RunJob

end NetworkFlow
