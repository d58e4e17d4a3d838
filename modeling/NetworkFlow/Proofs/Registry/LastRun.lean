import Mathlib.Data.List.Induction
import NetworkFlow.Proofs.Registry.Copies

/-!
# A flow is that of the last run

As long as runs are made in one call, the result that is kept with a solver is that of its last run:
a run begins with dropping the result of the one before and brings in its own, if it has one, and
nothing else brings in any. A map that is given to the solver drops the result too. So a flow that is
asked for is one of the solution of what the last run of the solver copied, and there is none if that
run was not optimal, or was not completed at all.

Nothing about this depends on what becomes of the graph and the maps after the run. Only that the arc
that is named is an arc of the graph as it was copied needs that handles are handed out once. When the
handle of the graph has come back, another graph is under it, and its arcs are given the flows of the
first one (`Shipment.reversed`). A flow is the amount on its arc as far as the type of the flows can
tell, which narrows what it does not hold (`RunJob.Narrows`).

## Main results

* `stored_run`: what a run leaves with its solver.
* `exists_lastRun`: where a result that is kept comes from.
* `exists_readFrom`, `flow_error_of_unsolved`: what a flow is read from, and when there is none.
* `flow_of_last_run`: a flow is that of an arc of the graph that was solved, as long as handles last.
-/

namespace NetworkFlow

/-- The amounts that a job finds out to be on the arcs, with their lower bounds, before they are
narrowed to flows. -/
def RunJob.amounts (job : RunJob) (fuel : Nat) : Option (List Int) := do
  let w ← job.width?
  let c ← (job.configuration w).toOption
  let p ← ← c.prepare.outcome.toOption
  match ← ((Method.ofAlgorithm job.algorithm).solve fuel p).outcome.toOption with
  | .feasible flow _ => some (List.ofFn fun a : Fin c.arcs => flow[a] + p.lower[a])
  | _ => none

/-- A flow is the amount that a job finds out to be on an arc, or the nearest one of the type of its
flows. -/
def RunJob.Narrows (job : RunJob) (fuel : Nat) (arc : Arc) (x : Int) : Prop :=
  ∃ w amounts y, job.width? = some w ∧ job.amounts fuel = some amounts ∧
    amounts[arc.index]? = some y ∧ x = (Word.clamp y : Word w).val

/-- The flow of an arc in an optimal solution of what a job asks for. -/
def RunJob.FindsFlow (job : RunJob) (fuel : Nat) (arc : Arc) (x : Int) : Prop :=
  ∃ w c flows potentials, job.width? = some w ∧ job.configuration w = .ok c ∧
    (c.solve fuel (.ofAlgorithm job.algorithm)).outcome = .ok (.optimal flows potentials) ∧
    flows[arc.index]?.map Amount.ofWord = some x

/-- The flow of an arc in a solution is the amount on it, narrowed. -/
theorem RunJob.FindsFlow.narrows {job : RunJob} {fuel : Nat} {arc : Arc} {x : Int}
    (h : job.FindsFlow fuel arc x) : job.Narrows fuel arc x := by
  obtain ⟨w, c, flows, potentials, hw, hc, hsolve, hx⟩ := h
  obtain ⟨p, flow, potential, hprepare, -, hengine, -, rfl, -⟩ :=
    Configuration.feasible_of_solve hsolve
  have hamounts : job.amounts fuel = some (List.ofFn fun a : Fin c.arcs => flow[a] + p.lower[a]) := by
    unfold RunJob.amounts
    simp only [hw, hc, hprepare, hengine, Except.toOption, Option.bind_eq_bind, Option.bind_some]
  obtain ⟨word, hword, rfl⟩ := Option.map_eq_some_iff.mp hx
  obtain ⟨hlt, rfl⟩ := Array.getElem?_eq_some_iff.mp hword
  rw [Array.size_ofFn] at hlt
  have hnarrow : w ≠ .bits128 := by
    rintro rfl
    unfold RunJob.width? at hw
    split at hw <;> cases hw
  refine ⟨w, _, _, hw, hamounts, List.getElem?_ofFn.trans (dif_pos hlt), ?_⟩
  rw [Array.getElem_ofFn, Amount.ofWord_eq hnarrow]
  rfl

namespace Registry

open NetworkFlow.Action

variable {r : Registry} {s h : Handle} {result : RunResult} {fuel : Nat}

/-- A request after which the flows of a solver are not those of an earlier run: it is run, or is
given a map. -/
def Request.Renews (s : Handle) (r : Registry) : Request → Prop
  | run solver _ => solver = s
  | edit (.attach solver role map) =>
      solver = s ∧ Accepted (.edit (.attach solver role map)) r
  | _ => False

/-- None of the requests renews the flows of a solver. -/
def Untouched (s : Handle) (r : Registry) (requests : List Request) : Prop :=
  ∀ before request after, requests = before ++ request :: after →
    ¬ request.Renews s (r.afterAll before)

/-- The last run of a solver, among requests to the empty registry: what it copied, and what came
before and after it. -/
structure LastRun (requests : List Request) (s : Handle) (fuel : Nat) (job : RunJob)
    (before after : List Request) : Prop where
  requests_eq : requests = before ++ .run s fuel :: after
  untouched : Untouched s (empty.afterAll (before ++ [.run s fuel])) after
  copied : (empty.afterAll before).copied s = .ok job

/-! ## Results after a request -/

theorem stored_discard (r : Registry) (s h : Handle) :
    (r.discard s).stored h = if h = s then none else r.stored h := by
  have hsnapshot := stored_snapshot r s h
  rwa [run_snapshot] at hsnapshot

theorem outcome_complete {done : CompletedRun} {record : SolverRecord}
    (hrecord : r.solver done.solver = .ok record) (hresult : done.result = .ok result) :
    ((complete done).run r).1.outcome = .ok result.verdict := by
  rw [run_complete, hrecord, hresult]
  simp only
  split <;> rfl

/-- The result that is kept after a run is the one that the run found. -/
theorem stored_run (hstored : (Request.after r (.run s fuel)).stored s = some result) :
    ∃ job, r.copied s = .ok job ∧ (job.result fuel).outcome = .ok result ∧
      ((Request.run s fuel).answer r).outcome = .ok result.verdict := by
  change ((run fuel s).run r).2.stored s = _ at hstored
  show ∃ job, _ ∧ _ ∧ ((run fuel s).run r).1.outcome = _
  have hnone : (r.discard s).stored s ≠ some result := by
    rw [stored_discard, if_pos rfl]
    exact fun h => by cases h
  rw [run_run] at hstored ⊢
  cases hcopied : r.copied s with
  | error cause =>
      rw [hcopied] at hstored
      exact absurd hstored hnone
  | ok job =>
      rw [hcopied] at hstored
      rcases stored_complete hstored with hold | ⟨hs, hresult, record, hrecord, -⟩
      · exact absurd hold hnone
      · replace hs : s = job.solver := hs
        have hsolver : (r.discard s).solver job.solver = .ok record := by
          rw [← hs]
          exact hrecord
        exact ⟨job, rfl, hresult, outcome_complete hsolver hresult⟩

/-- A map that is given to a solver drops its result. -/
theorem stored_attach {role : MapRole} {map : Handle}
    (haccepted : (Request.edit (.attach s role map)).Accepted r) :
    (Request.after r (.edit (.attach s role map))).stored s = none := by
  obtain ⟨a, ha⟩ := haccepted
  obtain ⟨b, hb, -⟩ := outcome_map_eq_ok.mp ha
  rw [after_edit]
  show ((attach s role map).run r).2.stored s = none
  unfold attach at hb ⊢
  rw [run_get_bind] at hb ⊢
  obtain ⟨record, hrecord, hrun⟩ := run_lift_bind_of_ok hb
  rw [hrun] at hb ⊢
  obtain ⟨object, -, hrun⟩ := run_lift_bind_of_ok hb
  rw [hrun] at hb ⊢
  obtain ⟨⟨owner, values⟩, -, hrun⟩ := run_lift_bind_of_ok hb
  rw [hrun] at hb ⊢
  simp only at hb ⊢
  split at hb
  · cases hb
  · rename_i howner
    split at hb
    · cases hb
    · rename_i htype
      have hcontains : r.objects.contains s :=
        HandleTable.contains_iff.mpr ⟨_, solver_eq_ok.mp hrecord⟩
      rw [if_neg howner, if_neg htype]
      exact (stored_set r s _ s).trans (by rw [if_pos ⟨rfl, hcontains⟩, result?_attach])

/-- A request that does not renew the flows of a solver brings in no result for it. -/
theorem stored_of_not_renews {request : Request} (hrenews : ¬ request.Renews s r)
    (hcomplete : ∀ done, request ≠ .complete done)
    (hstored : (Request.after r request).stored s = some result) : r.stored s = some result := by
  cases request with
  | edit edit =>
      rw [after_edit] at hstored
      exact edit.keepsOnly r s result hstored
  | snapshot solver =>
      have hafter : Request.after r (.snapshot solver) = r.discard solver :=
        congrArg Prod.snd (run_snapshot r solver)
      rw [hafter, stored_discard] at hstored
      split_ifs at hstored
      exact hstored
  | complete done => exact absurd rfl (hcomplete done)
  | run solver fuel =>
      have hne : s ≠ solver := fun heq => hrenews heq.symm
      have hdiscard : (r.discard solver).stored s = r.stored s := by
        rw [stored_discard, if_neg hne]
      change ((run fuel solver).run r).2.stored s = _ at hstored
      rw [run_run] at hstored
      cases hcopied : r.copied solver with
      | error cause =>
          rw [hcopied] at hstored
          exact hdiscard.symm.trans hstored
      | ok job =>
          rw [hcopied] at hstored
          obtain ⟨record, -, hcopy⟩ := copyOf_of_copied hcopied
          rcases stored_complete hstored with hold | ⟨hs, -⟩
          · exact hdiscard.symm.trans hold
          · exact absurd (hs.trans hcopy.solver) hne
  | look query => exact hstored

/-! ## Where a result comes from -/

theorem afterAll_concat (r : Registry) (requests : List Request) (request : Request) :
    r.afterAll (requests ++ [request]) = Request.after (r.afterAll requests) request :=
  afterAll_append r requests [request]

theorem untouched_nil (s : Handle) (r : Registry) : Untouched s r [] := by
  intro before request after h
  simp at h

theorem Untouched.concat {requests : List Request} {request : Request}
    (h : Untouched s r requests) (hrequest : ¬ request.Renews s (r.afterAll requests)) :
    Untouched s r (requests ++ [request]) := by
  intro before request' after heq
  rcases List.eq_nil_or_concat after with rfl | ⟨after', last, rfl⟩
  · obtain ⟨rfl, hlast⟩ := List.append_inj' heq rfl
    cases hlast
    exact hrequest
  · rw [List.concat_eq_append, ← List.cons_append, ← List.append_assoc] at heq
    exact h before request' after' (List.append_inj' heq rfl).1

/-- A result that is kept is that of the last run of its solver. -/
theorem exists_lastRun {requests : List Request} (hcomplete : ∀ done, .complete done ∉ requests)
    (hstored : (empty.afterAll requests).stored s = some result) :
    ∃ fuel job before after, LastRun requests s fuel job before after ∧
      (job.result fuel).outcome = .ok result ∧
      ((Request.run s fuel).answer (empty.afterAll before)).outcome = .ok result.verdict := by
  induction requests using List.reverseRecOn with
  | nil => exact absurd hstored (by simp [afterAll, stored, empty, HandleTable.empty, HandleTable.get?])
  | append_singleton requests request ih =>
      rw [afterAll_concat] at hstored
      by_cases hrenews : request.Renews s (empty.afterAll requests)
      · -- Only a run leaves a result: a map that is given to the solver drops it.
        cases request with
        | run solver fuel =>
            obtain rfl : solver = s := hrenews
            obtain ⟨job, hcopied, hresult, hanswer⟩ := stored_run hstored
            exact ⟨fuel, job, requests, [], ⟨rfl, untouched_nil _ _, hcopied⟩, hresult, hanswer⟩
        | edit edit =>
            cases edit with
            | attach solver role map =>
                obtain ⟨rfl, haccepted⟩ := hrenews
                rw [stored_attach haccepted] at hstored
                cases hstored
            | _ => exact hrenews.elim
        | _ => exact hrenews.elim
      · have hrequests : ∀ done, .complete done ∉ requests :=
          fun done hmem => hcomplete done (List.mem_append_left _ hmem)
        have hold := stored_of_not_renews hrenews
          (fun done heq => hcomplete done (by simp [heq])) hstored
        obtain ⟨fuel, job, before, after, hlast, hfound⟩ := ih hrequests hold
        refine ⟨fuel, job, before, after ++ [request], ⟨?_, ?_, hlast.copied⟩, hfound⟩
        · rw [hlast.requests_eq, List.append_assoc, List.cons_append]
        · refine hlast.untouched.concat ?_
          rw [← afterAll_append, List.append_assoc, List.singleton_append, ← hlast.requests_eq]
          exact hrenews

/-! ## What a flow is -/

section Flow

variable {requests : List Request} {key : KeyRef} {x : Int}

/-- A flow is read from the result that is kept with the solver, for the arc that the key names. -/
theorem arc_of_flow (hflow : r.flow h key = .ok x) :
    ∃ record result arc, r.solver h = .ok record ∧ r.stored h = some result ∧
      result.verdict = .optimal ∧ r.resolve record.graph .arc key = .ok arc ∧
      result.flows[arc.index]? = some x := by
  obtain ⟨record, hrecord, hflow⟩ := bind_eq_ok.mp hflow
  have hstored := stored_of_solver hrecord
  cases hresult : record.result with
  | none =>
      rw [hresult] at hflow
      cases hflow
  | some result =>
      rw [hresult] at hflow
      simp only at hflow
      split at hflow
      · cases hflow
      · rename_i hverdict
        obtain ⟨arc, harc, hflow⟩ := bind_eq_ok.mp hflow
        refine ⟨record, result, arc, hrecord, hstored.trans hresult, not_not.mp hverdict, ?_, ?_⟩
        · unfold solverArc at harc
          cases hresolved : r.resolve record.graph .arc key with
          | error cause =>
              rw [hresolved] at harc
              cases harc
          | ok found =>
              rw [hresolved] at harc
              cases harc
              rfl
        · unfold Solver.elementAt at hflow
          split at hflow
          · rename_i hget
            cases hflow
            exact hget
          · cases hflow

/-- A key that is resolved is one of the graph. -/
theorem graph_of_resolve {graph : Handle} {kind : KeyKind} {found : Key kind}
    (hresolve : r.resolve graph kind key = .ok found) :
    ∃ g, r.graph graph = .ok g ∧ found.graph = g.id := by
  obtain ⟨g, hg, hresolve⟩ := bind_eq_ok.mp hresolve
  refine ⟨g, hg, ?_⟩
  cases key with
  | index i =>
      simp only [Digraph.key] at hresolve
      split_ifs at hresolve
      cases hresolve
      rfl
  | handle k =>
      obtain ⟨object, -, hresolve⟩ := bind_eq_ok.mp hresolve
      obtain ⟨found', -, hresolve⟩ := bind_eq_ok.mp hresolve
      obtain ⟨i, hcheck, hresolve⟩ := bind_eq_ok.mp hresolve
      cases hresolve
      rw [g.check_eq_ok.mp hcheck]

/-- A flow is that of an arc in what the last run of its solver found, which was optimal. -/
structure ReadFrom (requests : List Request) (s : Handle) (key : KeyRef) (x : Int) (fuel : Nat)
    (job : RunJob) (before after : List Request) (arc : Arc) : Prop
    extends LastRun requests s fuel job before after where
  optimal : ((Request.run s fuel).answer (empty.afterAll before)).outcome = .ok .optimal
  /-- The run worked on what was under the handles of the solver when it began. -/
  contents : ∃ record, (empty.afterAll before).solver s = .ok record ∧
    (empty.afterAll before).CopyOf s record job
  /-- The arc is what the key names now. -/
  named : ∃ record, (empty.afterAll requests).solver s = .ok record ∧
    (empty.afterAll requests).resolve record.graph .arc key = .ok arc
  flow : job.FindsFlow fuel arc x

/-- A run of the solver was not optimal, and no later one was. -/
def Unsolved (requests : List Request) (s : Handle) : Prop :=
  ∃ before fuel after, requests = before ++ .run s fuel :: after ∧
    ((Request.run s fuel).answer (empty.afterAll before)).outcome ≠ .ok .optimal ∧
    ∀ before' fuel' after', after = before' ++ .run s fuel' :: after' →
      ((Request.run s fuel').answer
        (empty.afterAll (before ++ .run s fuel :: before'))).outcome ≠ .ok .optimal

/-- An optimal result has the flow of an arc for every arc of the graph that was copied. -/
theorem findsFlow_of_result {job : RunJob} {arc : Arc}
    (hresult : (job.result fuel).outcome = .ok result) (hoptimal : result.verdict = .optimal)
    (hflow : result.flows[arc.index]? = some x) :
    job.FindsFlow fuel arc x ∧ arc.index < job.graph.arcCount := by
  obtain ⟨w, c, solution, hw, hc, hsolution, rfl⟩ := RunJob.exists_solution_of_result hresult
  have hsize := Configuration.size_flows hsolution hoptimal
  cases solution with
  | optimal flows potentials =>
      refine ⟨⟨w, c, flows, potentials, hw, hc, hsolution, ?_⟩, ?_⟩
      · rw [← hflow]
        exact Array.getElem?_map.symm
      · obtain ⟨hlt, -⟩ := Array.getElem?_eq_some_iff.mp hflow
        have hlt : arc.index < (flows.map Amount.ofWord).size := hlt
        rw [Array.size_map, show flows.size = c.arcs from hsize] at hlt
        rwa [← RunJob.graph_of_configuration hc]
  | _ => cases hoptimal

/-- What is named now was there when the run began, if handles are handed out once. -/
theorem LastRun.check {job : RunJob} {before after : List Request} {record : SolverRecord} {arc : Arc}
    (hlast : LastRun requests s fuel job before after)
    (hfrees : ∀ index, empty.frees requests index < 4294967295)
    (hrecord : (empty.afterAll requests).solver s = .ok record)
    (hresolve : (empty.afterAll requests).resolve record.graph .arc key = .ok arc)
    (hindex : arc.index < job.graph.arcCount) : ∃ a, job.graph.check arc = .ok a := by
  have hlasts : empty.Lasts (before ++ (.run s fuel :: after)) := by
    rw [← hlast.requests_eq]
    exact lasts_empty hfrees
  obtain ⟨-, hr, hrest⟩ := hlasts.afterAll wellFormed_empty
  rw [← List.append_nil (.run s fuel :: after)] at hrest
  obtain ⟨hfollows, -, -⟩ := hrest.afterAll hr
  rw [← afterAll_append, ← hlast.requests_eq] at hfollows
  obtain ⟨record', hrecord', hcopy⟩ := copyOf_of_copied hlast.copied
  -- The solver is the one that was run, so it has the same graph, and that has the same identity.
  have hsolver := signature_solver hrecord'
  have hsame := hfollows.signature s _ (hr.issued hsolver) (signature_solver hrecord)
  rw [hsolver] at hsame
  simp only [Option.some.injEq, Signature.solver.injEq] at hsame
  obtain ⟨g, hg, hgraph⟩ := graph_of_resolve hresolve
  have hcopied := signature_of_graph hcopy.graph
  rw [hsame.1] at hcopied
  have hid := hfollows.signature record.graph _ (hr.issued hcopied) (signature_of_graph hg)
  rw [hcopied] at hid
  simp only [Option.some.injEq, Signature.graph.injEq] at hid
  refine ⟨⟨arc.index, hindex⟩, job.graph.check_eq_ok.mpr ?_⟩
  obtain ⟨graph, index⟩ := arc
  rw [hid, ← hgraph]

/-- A solver whose last run was not optimal keeps no optimal result. -/
theorem not_unsolved {job : RunJob} {before after : List Request}
    (hlast : LastRun requests s fuel job before after)
    (hoptimal : ((Request.run s fuel).answer (empty.afterAll before)).outcome = .ok .optimal) :
    ¬ Unsolved requests s := by
  rintro ⟨before', fuel', after', heq, hanswer, hlater⟩
  have hsplit := heq.symm.trans hlast.requests_eq
  rcases List.append_eq_append_iff.mp hsplit with ⟨mid, rfl, hmid⟩ | ⟨mid, rfl, hmid⟩
  · cases mid with
    | nil =>
        rw [List.append_nil] at hoptimal
        cases hmid
        exact hanswer hoptimal
    | cons request mid =>
        obtain ⟨rfl, rfl⟩ := List.cons.inj hmid
        exact hlater mid fuel after rfl hoptimal
  · cases mid with
    | nil =>
        rw [List.append_nil] at hanswer
        cases hmid
        exact hanswer hoptimal
    | cons request mid =>
        obtain ⟨rfl, rfl⟩ := List.cons.inj hmid
        exact hlast.untouched mid (.run s fuel') after' rfl rfl

/-- Whatever requests are made of an empty registry, with runs in one call, a flow is read from what
the last run of the solver found. -/
theorem exists_readFrom (hcomplete : ∀ done, .complete done ∉ requests)
    (hflow : (empty.afterAll requests).flow s key = .ok x) :
    ∃ fuel job before after arc, ReadFrom requests s key x fuel job before after arc ∧
      arc.index < job.graph.arcCount := by
  obtain ⟨record, result, arc, hrecord, hstored, hverdict, hresolve, hx⟩ := arc_of_flow hflow
  obtain ⟨fuel, job, before, after, hlast, hresult, hanswer⟩ := exists_lastRun hcomplete hstored
  obtain ⟨hfinds, hindex⟩ := findsFlow_of_result hresult hverdict hx
  exact ⟨fuel, job, before, after, arc, ⟨hlast, hverdict ▸ hanswer, copyOf_of_copied hlast.copied,
    ⟨record, hrecord, hresolve⟩, hfinds⟩, hindex⟩

/-- There is no flow after a run that was not optimal, for whatever reason and for whatever key, until
a later run is. -/
theorem flow_error_of_unsolved (hcomplete : ∀ done, .complete done ∉ requests)
    (hunsolved : Unsolved requests s) (key : KeyRef) :
    ∃ cause, (empty.afterAll requests).flow s key = .error cause := by
  cases hflow : (empty.afterAll requests).flow s key with
  | error cause => exact ⟨cause, rfl⟩
  | ok x =>
      obtain ⟨fuel, job, before, after, arc, hfrom, -⟩ := exists_readFrom hcomplete hflow
      exact absurd hunsolved (not_unsolved hfrom.toLastRun hfrom.optimal)

/-- Whatever requests are made of an empty registry, with runs in one call, that free no slot
2 ^ 32 - 1 times: if there is a flow then the last run of the solver was optimal, no map was given to
the solver since, the arc is one of the graph that the run copied, and the flow is the amount on the
arc in the solution, narrowed to the type of the flows. So there is no flow after a run that was not
optimal, for whatever reason and for whatever key, until a later run is. -/
theorem flow_of_last_run (requests : List Request) (hcomplete : ∀ done, .complete done ∉ requests)
    (hfrees : ∀ index, empty.frees requests index < 4294967295) (s : Handle) (key : KeyRef) :
    (∀ x, (empty.afterAll requests).flow s key = .ok x →
      ∃ fuel job before after arc, ReadFrom requests s key x fuel job before after arc ∧
        (∃ a, job.graph.check arc = .ok a) ∧ job.Narrows fuel arc x) ∧
    (Unsolved requests s → ∃ cause, (empty.afterAll requests).flow s key = .error cause) := by
  refine ⟨fun x hflow => ?_, fun hunsolved => flow_error_of_unsolved hcomplete hunsolved key⟩
  obtain ⟨fuel, job, before, after, arc, hfrom, hindex⟩ := exists_readFrom hcomplete hflow
  obtain ⟨record, hrecord, hresolve⟩ := hfrom.named
  exact ⟨fuel, job, before, after, arc, hfrom,
    hfrom.toLastRun.check hfrees hrecord hresolve hindex, hfrom.flow.narrows⟩

/-- The supplies are destroyed after a run: its flow stays until the solver is run again, which
fails. -/
theorem flow_of_last_run_orphaned :
    ((∀ done, .complete done ∉ Shipment.orphaned) ∧
      (∀ index, empty.frees Shipment.orphaned index < 4294967295) ∧
      (empty.afterAll Shipment.orphaned).flow Shipment.solver (.index 0) = .ok 2 ∧
      ∃ fuel job before after arc,
        ReadFrom Shipment.orphaned Shipment.solver (.index 0) 2 fuel job before after arc ∧
          (∃ a, job.graph.check arc = .ok a) ∧ job.Narrows fuel arc 2) ∧
    (∀ done, .complete done ∉ Shipment.orphaned ++ [.run Shipment.solver 20]) ∧
      (∀ index, empty.frees (Shipment.orphaned ++ [.run Shipment.solver 20]) index < 4294967295) ∧
      Unsolved (Shipment.orphaned ++ [.run Shipment.solver 20]) Shipment.solver ∧
      ∃ cause, (empty.afterAll (Shipment.orphaned ++ [.run Shipment.solver 20])).flow
        Shipment.solver (.index 0) = .error cause := by
  have hcomplete : ∀ done, .complete done ∉ Shipment.orphaned := by
    simp [Shipment.orphaned, Shipment.order, Shipment.supply]
  have hcomplete' : ∀ done, .complete done ∉ Shipment.orphaned ++ [.run Shipment.solver 20] := by
    simp [Shipment.orphaned, Shipment.order, Shipment.supply]
  have hfrees : ∀ index, empty.frees Shipment.orphaned index < 4294967295 :=
    fun index => Nat.lt_of_le_of_lt (frees_le_length _ _ index) (by decide)
  have hfrees' : ∀ index,
      empty.frees (Shipment.orphaned ++ [.run Shipment.solver 20]) index < 4294967295 :=
    fun index => Nat.lt_of_le_of_lt (frees_le_length _ _ index) (by decide)
  have hflow : (empty.afterAll Shipment.orphaned).flow Shipment.solver (.index 0) = .ok 2 :=
    ok_of_toOption (by decide +kernel)
  have hrefused : ((Request.run Shipment.solver 20).answer
      (empty.afterAll Shipment.orphaned)).outcome = .error (.refused .unconfigured) :=
    error_of_match (by decide +kernel)
  have hunsolved : Unsolved (Shipment.orphaned ++ [.run Shipment.solver 20]) Shipment.solver := by
    refine ⟨Shipment.orphaned, 20, [], rfl, ?_, fun before' fuel' after' h => by simp at h⟩
    rw [hrefused]
    exact fun h => by cases h
  exact ⟨⟨hcomplete, hfrees, hflow, (flow_of_last_run _ hcomplete hfrees _ _).1 2 hflow⟩, hcomplete',
    hfrees', hunsolved, (flow_of_last_run _ hcomplete' hfrees' _ _).2 hunsolved⟩

end Flow

/-- The only run of the solver is the one before its graph is destroyed. -/
theorem copied_of_reversed {fuel : Nat} {job : RunJob} {before after : List Request}
    (hlast : LastRun Shipment.reversed Shipment.solver fuel job before after) :
    (empty.afterAll (Shipment.order 2)).copied Shipment.solver = .ok job := by
  have hsplit : Shipment.reversed = Shipment.order 2 ++ .run Shipment.solver 20 ::
      (.edit (.destruct Shipment.graph .staticDigraph) ::
        (wear 0 2 4294967294 ++ Shipment.rebuilt)) := by
    simp only [Shipment.reversed, Shipment.graphLost, List.append_assoc, List.cons_append,
      List.nil_append]
  have hbefore : Request.run Shipment.solver fuel ∉ Shipment.order 2 := by
    simp [Shipment.order, Shipment.supply]
  have hafter : Request.run Shipment.solver fuel ∉
      .edit (.destruct Shipment.graph .staticDigraph) ::
        (wear 0 2 4294967294 ++ Shipment.rebuilt) := by
    simp only [List.mem_cons, List.mem_append, not_or]
    refine ⟨by simp, fun hmem => ?_, by simp [Shipment.rebuilt]⟩
    obtain ⟨_, hedit⟩ := exists_edit_of_mem_wear hmem
    cases hedit
  obtain ⟨rfl, -, -⟩ := (List.append_cons_inj_of_notMem hbefore hafter).mp
    (hsplit.symm.trans hlast.requests_eq)
  exact hlast.copied

theorem complete_notMem_reversed (done : CompletedRun) : .complete done ∉ Shipment.reversed := by
  intro hmem
  rcases List.mem_append.mp hmem with hmem | hmem
  · rcases List.mem_append.mp hmem with hmem | hmem
    · simp [Shipment.graphLost, Shipment.order, Shipment.supply] at hmem
    · obtain ⟨_, hedit⟩ := exists_edit_of_mem_wear hmem
      cases hedit
  · simp [Shipment.rebuilt] at hmem

/-- The arc that is named in the end is none of the graph that was copied. -/
theorem check_of_reversed {fuel : Nat} {job : RunJob} {before after : List Request} {arc : Arc}
    (hfrom : ReadFrom Shipment.reversed Shipment.solver (.index 0) 2 fuel job before after arc) :
    job.graph.check arc = .error .foreignIdentity := by
  have hjob : ((empty.afterAll (Shipment.order 2)).copied Shipment.solver).map (·.graph.id) =
      .ok ⟨1⟩ := ok_of_toOption (by decide +kernel)
  rw [copied_of_reversed hfrom.toLastRun] at hjob
  have hid : job.graph.id = ⟨1⟩ := Except.ok.inj hjob
  have harc : ((empty.afterAll Shipment.reversed).solver Shipment.solver >>= fun record =>
      (empty.afterAll Shipment.reversed).resolve record.graph .arc (.index 0)) = .ok ⟨⟨2⟩, 0⟩ := by
    rw [Shipment.afterAll_reversed]
    exact ok_of_toOption (by decide +kernel)
  obtain ⟨record, hrecord, hresolve⟩ := hfrom.named
  obtain ⟨record', hrecord', hresolve'⟩ := bind_eq_ok.mp harc
  -- the registry is named, as it is reached by more requests than can be unfolded
  generalize empty.afterAll Shipment.reversed = r at hrecord hresolve hrecord' hresolve'
  cases hrecord.symm.trans hrecord'
  obtain rfl : arc = ⟨⟨2⟩, 0⟩ := Except.ok.inj (hresolve.symm.trans hresolve')
  exact Digraph.check_eq_error_iff.mpr (.inl ⟨by rw [hid]; decide, rfl⟩)

/-- The only run of the solver of the problem of `Shipment.returns` is the one that comes after it, and
finds more on the first arc than 32 bits hold. -/
theorem amounts_of_returns {fuel : Nat} {job : RunJob} {before after : List Request}
    (hlast : LastRun (Shipment.returns ++ [.run Shipment.narrowSolver 20]) Shipment.narrowSolver fuel
      job before after) :
    job.amounts fuel = some [4000000000, 2000000000, 2000000000] := by
  have hbefore : Request.run Shipment.narrowSolver fuel ∉ Shipment.returns := by
    simp [Shipment.returns, Shipment.bound]
  obtain ⟨rfl, hrun, -⟩ := (List.append_cons_inj_of_notMem hbefore List.not_mem_nil).mp
    hlast.requests_eq
  cases hrun
  have hamounts : ((empty.afterAll Shipment.returns).copied Shipment.narrowSolver).map
      (·.amounts 20) = .ok (some [4000000000, 2000000000, 2000000000]) :=
    ok_of_toOption (by decide +kernel)
  rw [hlast.copied] at hamounts
  exact Except.ok.inj hamounts

/-- The flow of the last run may be none of the solution. An amount that the type of the flows does not
hold is reported as the largest flow that there is. And when the handle of a graph has come back, the
flow of an arc is answered for one of another graph, which was made after the run: the arc that is
named was not there to be solved. -/
theorem flow_astray :
    ((∀ done, .complete done ∉ Shipment.returns ++ [.run Shipment.narrowSolver 20]) ∧
      (empty.afterAll (Shipment.returns ++ [.run Shipment.narrowSolver 20])).flow
        Shipment.narrowSolver (.index 0) = .ok 2147483647 ∧
      ∀ fuel job before after, LastRun (Shipment.returns ++ [.run Shipment.narrowSolver 20])
        Shipment.narrowSolver fuel job before after →
          job.amounts fuel = some [4000000000, 2000000000, 2000000000]) ∧
    (∀ done, .complete done ∉ Shipment.reversed) ∧
      (empty.afterAll Shipment.reversed).flow Shipment.solver (.index 0) = .ok 2 ∧
      ∀ fuel job before after arc,
        ReadFrom Shipment.reversed Shipment.solver (.index 0) 2 fuel job before after arc →
          job.graph.check arc = .error .foreignIdentity := by
  refine ⟨⟨by simp [Shipment.returns, Shipment.bound], ok_of_toOption (by decide +kernel),
    fun _ _ _ _ => amounts_of_returns⟩, complete_notMem_reversed, ?_, fun _ _ _ _ _ => check_of_reversed⟩
  rw [Shipment.afterAll_reversed]
  exact ok_of_toOption (by decide +kernel)

end Registry

end NetworkFlow
