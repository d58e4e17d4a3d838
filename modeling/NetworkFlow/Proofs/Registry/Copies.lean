import NetworkFlow.Proofs.Registry.Job
import NetworkFlow.Proofs.Registry.Recurring
import NetworkFlow.Proofs.Registry.Refused
import NetworkFlow.Proofs.Registry.WellFormed

/-!
# What a snapshot copies is of the right types

A handle is handed out once as long as the generation of its slot does not run over, which it does
when the slot is freed for the 2 ^ 32 - 1st time. Requests that do not free a slot that often
(`Lasts`) leave a registry in which every map and every solver still fits what is under its handles.
What a snapshot copies therefore has the types and the graph that were checked when the solver was
given its maps. Once a handle has come back, a map of another type can be under it, and a run that
was copied is refused for that (`Shipment.retyped`).

## Main results

* `Request.grows`, `Request.removes`: a request destroys nothing, or one object.
* `Lasts.afterAll`: what requests keep.
* `copies_are_wellTyped`: a job has proper maps, and is refused for nothing but an overflow.
-/

namespace NetworkFlow

namespace Registry

variable {r : Registry} {h : Handle} {record : SolverRecord}

/-! ## Objects that are destroyed -/

section Destroyed

open NetworkFlow.Action

/-- The handle under which a request destroys an object, if it is not refused. -/
def Request.destroyed (r : Registry) : Request → Option Handle
  | edit e =>
      match (e.action.run r).1.outcome with
      | .ok _ => e.target
      | .error _ => none
  | _ => none

/-- What destroying an object leaves, if it is not refused. -/
def Removes (r : Registry) (h : Handle) (r' : Registry) : Prop :=
  ∃ objects old, r.objects.remove h = .ok (objects, old) ∧ r' = { r with objects }

theorem removes_of_destruct {kind : ObjectKind}
    (hok : ∃ a, ((destruct h kind).run r).1.outcome = .ok a) :
    r.Removes h ((destruct h kind).run r).2 := by
  obtain ⟨a, hok⟩ := hok
  unfold destruct at hok ⊢
  rw [run_get_bind] at hok ⊢
  cases hkind : r.kind h with
  | error cause =>
      rw [hkind] at hok
      cases hok
  | ok actual =>
      rw [hkind, run_ok_bind] at hok
      rw [run_ok_bind]
      split at hok
      · cases hok
      · rename_i heq
        rw [if_neg heq]
        cases hremove : r.objects.remove h with
        | error cause =>
            rw [hremove] at hok
            cases hok
        | ok left => exact ⟨left.1, left.2, hremove, rfl⟩

theorem removes_of_deleteObject (hok : ∃ a, ((deleteObject h).run r).1.outcome = .ok a) :
    r.Removes h ((deleteObject h).run r).2 := by
  unfold deleteObject at hok ⊢
  rw [run_get_bind] at hok ⊢
  cases hkind : r.kind h with
  | error cause =>
      rw [hkind] at hok
      obtain ⟨a, hok⟩ := hok
      cases hok
  | ok kind =>
      rw [hkind, run_ok_bind] at hok
      rw [run_ok_bind]
      cases kind with
      | node => exact removes_of_destruct hok
      | arc => exact removes_of_destruct hok
      | _ =>
          obtain ⟨a, hok⟩ := hok
          cases hok

/-- A request that destroys nothing. -/
theorem Request.grows {request : Request} (hnone : request.destroyed r = none) :
    Grows r (Request.after r request) := by
  cases request with
  | edit edit =>
      cases houtcome : (edit.action.run r).1.outcome with
      | error fault =>
          have hsame : Request.after r (.edit edit) = r := edit.atomicAt r fault houtcome
          rw [hsame]
          exact Std.Refl.refl r
      | ok a =>
          simp only [Request.destroyed, houtcome] at hnone
          rw [after_edit]
          exact Edit.grows hnone r
  | snapshot solver =>
      have hrun : Request.after r (.snapshot solver) = r.discard solver :=
        congrArg Prod.snd (run_snapshot r solver)
      rw [hrun]
      exact grows_discard r solver
  | complete done => exact grows_complete r done
  | run solver fuel => exact grows_run r solver fuel
  | look query => exact Std.Refl.refl r

/-- A request that destroys an object. -/
theorem Request.removes {request : Request} (hsome : request.destroyed r = some h) :
    r.Removes h (Request.after r request) := by
  cases request with
  | edit edit =>
      cases houtcome : (edit.action.run r).1.outcome with
      | error fault => simp [Request.destroyed, houtcome] at hsome
      | ok a =>
          simp only [Request.destroyed, houtcome] at hsome
          cases edit with
          | destruct h' kind =>
              cases hsome
              obtain ⟨a', ha', -⟩ := outcome_map_eq_ok.mp houtcome
              rw [after_edit]
              exact removes_of_destruct ⟨a', ha'⟩
          | deleteObject h' =>
              cases hsome
              obtain ⟨a', ha', -⟩ := outcome_map_eq_ok.mp houtcome
              rw [after_edit]
              exact removes_of_deleteObject ⟨a', ha'⟩
          | _ => cases hsome
  | _ => cases hsome

/-- How often requests free a slot. -/
def frees (r : Registry) : List Request → UInt32 → Nat
  | [], _ => 0
  | request :: requests, index =>
      (if (request.destroyed r).any (·.index = index) then 1 else 0) +
        frees (Request.after r request) requests index

/-- No generation runs over: the slots that are there are left some, and so are new ones. -/
structure Lasts (r : Registry) (requests : List Request) : Prop where
  filled : ∀ (index : UInt32) slot, r.objects.slots[index.toNat]? = some slot →
    slot.generation.toNat + r.frees requests index < 4294967296
  fresh : ∀ index, 1 + r.frees requests index < 4294967296

variable {request : Request} {requests : List Request}

theorem Lasts.after (hr : r.WellFormed) (hlasts : r.Lasts (request :: requests)) :
    Follows r (Request.after r request) ∧ (Request.after r request).WellFormed ∧
      (Request.after r request).Lasts requests := by
  cases hdestroyed : request.destroyed r with
  | none =>
      obtain ⟨hfollows, hr', hage⟩ := Request.grows hdestroyed hr
      have hfrees : ∀ index, r.frees (request :: requests) index =
          (Request.after r request).frees requests index := by
        simp [frees, hdestroyed]
      refine ⟨hfollows, hr', fun index slot hslot => ?_, fun index => ?_⟩
      · rw [← hfrees]
        rcases hage _ _ hslot with hnew | ⟨old, hold, heq⟩
        · rw [hnew]
          exact hlasts.fresh index
        · rw [← heq]
          exact hlasts.filled index old hold
      · rw [← hfrees]
        exact hlasts.fresh index
  | some h =>
      obtain ⟨objects, old, hremove, hafter⟩ := Request.removes hdestroyed
      obtain ⟨hget, heq⟩ := HandleTable.remove_eq_ok hremove
      have hslot := HandleTable.slot_of_get? hget
      have hfrees : ∀ index, r.frees (request :: requests) index =
          (if h.index = index then 1 else 0) + (Request.after r request).frees requests index := by
        simp [frees, hdestroyed]
      have hlast : h.generation.toNat + 1 < 4294967296 := by
        have hfilled := hlasts.filled h.index _ hslot
        rw [hfrees, if_pos rfl] at hfilled
        simp only [Slot.generation] at hfilled
        omega
      obtain ⟨hfollows, hr'⟩ := hr.remove hremove hlast
      refine ⟨hafter ▸ hfollows, hafter ▸ hr', fun index slot hindex => ?_, fun index => ?_⟩
      · rw [hafter, heq] at hindex
        replace hindex := (HandleTable.getElem?_write hslot _ _).symm.trans hindex
        split at hindex
        · -- The slot that is freed is one generation older, and is freed once less from here on.
          rename_i hsame
          cases hindex
          have hfilled := hlasts.filled h.index _ hslot
          rw [hfrees, if_pos rfl] at hfilled
          rw [UInt32.toNat_inj.mp hsame]
          simp only [Slot.generation, HandleTable.toNat_nextGeneration hlast] at hfilled ⊢
          omega
        · rename_i hne
          have hfilled := hlasts.filled index slot hindex
          rw [hfrees] at hfilled
          omega
      · have hfresh := hlasts.fresh index
        rw [hfrees] at hfresh
        omega

/-- What requests keep. -/
theorem Lasts.afterAll {before : List Request} (hr : r.WellFormed)
    (hlasts : r.Lasts (before ++ requests)) :
    Follows r (r.afterAll before) ∧ (r.afterAll before).WellFormed ∧
      (r.afterAll before).Lasts requests := by
  induction before generalizing r with
  | nil => exact ⟨.refl r, hr, hlasts⟩
  | cons request before ih =>
      obtain ⟨hfollows, hr', hlasts'⟩ := hlasts.after hr
      obtain ⟨hfollows', hr'', hlasts''⟩ := ih hr' hlasts'
      exact ⟨hfollows.trans hfollows', hr'', hlasts''⟩

/-- Requests to the empty registry that do not free a slot 2 ^ 32 - 1 times. -/
theorem lasts_empty (hfrees : ∀ index, empty.frees requests index < 4294967295) :
    empty.Lasts requests where
  filled index slot hslot := by
    simp [empty, HandleTable.empty] at hslot
  fresh index := by
    have := hfrees index
    omega

end Destroyed

/-! ## Copies for a run -/

section Copies

variable {solver : Handle} {job : RunJob}

/-- A map of a solver that is copied has the type it must have, and is a map of the graph. -/
theorem WellFormed.map_of_role (hr : r.WellFormed) (hrecord : r.solver solver = .ok record)
    {role : MapRole} {values : AnyMap role.keyKind} {g : Digraph}
    (hg : r.graph record.graph = .ok g)
    (hvalues : r.solverMap role.keyKind (record.attached role) = .ok (some values)) :
    values.type = record.expected role ∧ values.map.graph = g.id := by
  obtain ⟨m, owner, hm, hmap⟩ := solverMap_eq_some.mp hvalues
  have hsignature := signature_of_map hmap
  obtain ⟨-, hchecked⟩ := hr.attached solver record role m hrecord hm
  obtain ⟨rfl, htype⟩ := hchecked owner _ _ hsignature
  obtain ⟨-, hid⟩ := hr.map m _ _ _ _ hsignature
  exact ⟨htype, (hid g.id (signature_of_graph hg)).symm⟩

theorem WellFormed.wellTyped (hr : r.WellFormed) (hjob : r.copied solver = .ok job) :
    job.WellTyped := by
  obtain ⟨record, hrecord, hcopy⟩ := copyOf_of_copied hjob
  have hrole : ∀ (role : MapRole) (values : AnyMap role.keyKind),
      r.solverMap role.keyKind (record.attached role) = .ok (some values) →
        values.type = record.expected role ∧ values.map.graph = job.graph.id :=
    fun role values hvalues => hr.map_of_role hrecord hcopy.graph hvalues
  constructor
  · rw [hcopy.flowType]
    exact hr.flow solver record hrecord
  · intro values hvalues
    rw [hcopy.costType]
    exact hrole .cost values (hcopy.cost.trans (congrArg Except.ok hvalues))
  · intro values hvalues
    rw [hcopy.flowType]
    exact hrole .lower values (hcopy.lower.trans (congrArg Except.ok hvalues))
  · intro values hvalues
    rw [hcopy.flowType]
    exact hrole .upper values (hcopy.upper.trans (congrArg Except.ok hvalues))
  · intro values hvalues
    rw [hcopy.flowType]
    exact hrole .supply values (hcopy.supply.trans (congrArg Except.ok hvalues))

theorem copied_of_snapshot (hjob : ((Request.snapshot solver).answer r).outcome = .ok job) :
    r.copied solver = .ok job := by
  change ((snapshot solver).run r).1.outcome = .ok job at hjob
  rw [run_snapshot] at hjob
  exact Logged.outcome_ofExcept_eq_ok.mp hjob

/-- Whatever requests are made that free no slot 2 ^ 32 - 1 times, whatever was destroyed since a
solver was given its maps and whatever is in its place, a job that a snapshot returns has maps of its
types and of its graph. Executing it is refused for nothing but an arithmetic overflow. -/
theorem copies_are_wellTyped (requests : List Request)
    (hfrees : ∀ index, empty.frees requests index < 4294967295) (solver : Handle) (job : RunJob)
    (hjob : ((Request.snapshot solver).answer (empty.afterAll requests)).outcome = .ok job)
    (fuel : Nat) :
    job.WellTyped ∧ ∃ done, (job.execute fuel).outcome = .ok done ∧
      ∀ cause, done.result = .error (.refused cause) → cause = .arithmeticOverflow := by
  have hlasts : empty.Lasts (requests ++ []) := by
    rw [List.append_nil]
    exact lasts_empty hfrees
  obtain ⟨-, hr, -⟩ := hlasts.afterAll wellFormed_empty
  have htyped := hr.wellTyped (copied_of_snapshot hjob)
  exact ⟨htyped, _, rfl, htyped.refusesOnly_result fuel⟩

theorem frees_le_length (r : Registry) (requests : List Request) (index : UInt32) :
    r.frees requests index ≤ requests.length := by
  induction requests generalizing r with
  | nil => exact Nat.le_refl 0
  | cons request requests ih =>
      have hrest := ih (Request.after r request)
      simp only [frees, List.length_cons]
      split <;> omega

/-- The slot of the list that the graph was built from is filled again before the run. -/
def Shipment.refilled : List Request :=
  order 2 ++ [.edit (.destruct pairs .pairList), .edit (.newMap .arc graph .double)]

theorem copies_are_wellTyped_refilled :
    (∀ index, empty.frees Shipment.refilled index < 4294967295) ∧
      ∃ job, ((Request.snapshot Shipment.solver).answer
          (empty.afterAll Shipment.refilled)).outcome = .ok job ∧
        job.WellTyped ∧ ∃ done, (job.execute 20).outcome = .ok done ∧
          ∀ cause, done.result = .error (.refused cause) → cause = .arithmeticOverflow := by
  have hfrees : ∀ index, empty.frees Shipment.refilled index < 4294967295 :=
    fun index => Nat.lt_of_le_of_lt (frees_le_length _ _ index) (by decide)
  have hsome : (((Request.snapshot Shipment.solver).answer
      (empty.afterAll Shipment.refilled)).outcome.toOption).isSome := by
    decide +kernel
  obtain ⟨job, hjob⟩ := Option.isSome_iff_exists.mp hsome
  have hok := ok_of_toOption hjob
  exact ⟨hfrees, job, hok, copies_are_wellTyped _ hfrees _ job hok 20⟩

/-- What ends the run that a snapshot would copy, if it is copied and ends without a result. -/
def faultOf (r : Registry) (solver : Handle) (fuel : Nat) : Option Fault :=
  match r.copied solver with
  | .error _ => none
  | .ok job =>
      match (job.result fuel).outcome with
      | .error fault => some fault
      | .ok _ => none

theorem exists_job_of_faultOf {fuel : Nat} {fault : Fault}
    (h : r.faultOf solver fuel = some fault) :
    ∃ job, ((Request.snapshot solver).answer r).outcome = .ok job ∧
      ∃ done, (job.execute fuel).outcome = .ok done ∧ done.result = .error fault := by
  unfold faultOf at h
  cases hcopied : r.copied solver with
  | error cause =>
      rw [hcopied] at h
      cases h
  | ok job =>
      rw [hcopied] at h
      have hanswer : ((Request.snapshot solver).answer r).outcome = .ok job := by
        show ((snapshot solver).run r).1.outcome = _
        rw [run_snapshot, hcopied]
        rfl
      refine ⟨job, hanswer, _, rfl, ?_⟩
      show (job.result fuel).outcome = _
      cases hresult : (job.result fuel).outcome with
      | ok result => simp [hresult] at h
      | error fault' => simpa [hresult] using h

/-- A snapshot is not refused when a map of another type is under a handle that has come back, but
the run that it copies is. And the sum of a lower bound and of what flows above it may be no amount
although both are: such a run ends with no answer, instead of being refused for the overflow. -/
theorem copies_fail :
    (∃ job, ((Request.snapshot Shipment.solver).answer
        (empty.afterAll Shipment.retyped)).outcome = .ok job ∧
      ∃ done, (job.execute 20).outcome = .ok done ∧
        done.result = .error (.refused .kindMismatch)) ∧
    (∃ job, ((Request.snapshot Shipment.solver).answer
        (empty.afterAll Shipment.brimming)).outcome = .ok job ∧
      ∃ done, (job.execute 20).outcome = .ok done ∧ done.result = .error .overflow) := by
  refine ⟨exists_job_of_faultOf ?_, exists_job_of_faultOf (by decide +kernel)⟩
  rw [Shipment.afterAll_retyped]
  decide +kernel

end Copies

end Registry

end NetworkFlow
