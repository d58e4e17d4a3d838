import NetworkFlow.Proofs.Flat.Underlying
import NetworkFlow.Proofs.Registry.Refused

/-!
# What callers of the flat surface are told

Callers of the flat surface get nothing but numbers, and see the rest in the log. What they get and see
tells them how the call ended, and why: there is one warning if it failed and none if it did not, no
handle is zero but that of a failure, the codes of the causes are negative and those of the verdicts are
not (`Faithful`). This holds of every registry that calls leave (`reached`), whatever the calls were
and however they ended.

A call succeeds if the registry answers what it asks and the answer can be told, and fails if the
registry refuses or the answer cannot be told. A run may do neither: a plain sum that leaves the range
of its type cuts it short, and then there is no reply and no warning (`overflow_untold`).

A negative number never names a node or an arc, as long as there is no graph with more of them than
can be counted (`Representable`); there is none before as many calls were made.

## Main results

* `representable_reached`: how many calls there must be before counts leave their range.
* `reports_faithfully`: what is told of a call, after any others.
-/

namespace NetworkFlow

/-- No graph has more nodes or arcs than a number without sign of 64 bits can count. -/
def Registry.Representable (r : Registry) : Prop :=
  ∀ h g, r.graph h = .ok g → ∀ kind, g.count kind < unsignedBound

namespace Flat

/-! ## Codes -/

theorem code_neg (cause : Error) : code cause < 0 := by
  cases cause with
  | algorithmSpecific text => exact (by decide : (-9 : Int) < 0)
  | _ => decide

theorem code_verdict (v : Verdict) : (v.code : Int) = 0 ∨ (v.code : Int) = 1 ∨ (v.code : Int) = 2 := by
  cases v <;> decide

/-- The reply is the zero of its type. -/
def Reply.IsZero : Reply → Prop
  | .number index => index = 0
  | .value .int x => x.val = 0
  | .value .long x => x.val = 0
  | .value .double x => x = 0.0
  | .amount x => x = 0
  | _ => False

/-- What is asked for is a number, a value or an amount. -/
def Shape.IsGetter : Shape → Prop
  | .number => True
  | .value _ => True
  | .amount => True
  | _ => False

theorem Shape.isZero_refused {shape : Shape} (h : shape.IsGetter) (cause : Error) :
    (shape.refused cause).IsZero := by
  cases shape with
  | number => rfl
  | value type => cases type <;> rfl
  | amount => rfl
  | nothing | status | handle | verdict => cases h

/-! ## Calls -/

/-- The argument is a number, and negative. -/
def GraphFamily.NamesNegative : (family : GraphFamily) → family.key.Value → Prop
  | .list, _ => False
  | .static, i => i.val < 0

namespace Call

/-- The key that a map or the flow of a solver is asked for is a negative number. -/
def NamesNegative : Call → Prop
  | ⟨.mapGet family, (_, key, ())⟩ => family.graph.NamesNegative key
  | ⟨.mapSet family, (_, key, _, ())⟩ => family.graph.NamesNegative key
  | ⟨.flow family, (_, arc, ())⟩ => family.NamesNegative arc
  | _ => False

variable (fuel : Nat) (r : Registry) (call : Call)

/-- The call replies. -/
def Replies (reply : Reply) : Prop := ((perform fuel call).run r).1.outcome = .ok reply

/-- The warnings that the call reports. -/
def warnings : List Event := ((perform fuel call).run r).1.events.filter (·.level = .warn)

/-- The registry answers what the call asks for, and the answer can be told. -/
def Answers (a : call.operation.shape.Result) : Prop :=
  ((call.underlying fuel).run r).1.outcome = .ok a ∧ call.operation.shape.Fits a

/-- What the call asks for is answered. -/
def Succeeds : Prop := ∃ a, call.Answers fuel r a

/-- What the call asks for is refused, or the answer cannot be told. -/
def Fails (cause : Error) : Prop :=
  ((call.underlying fuel).run r).1.outcome = .error (.refused cause) ∨
    ∃ a, ((call.underlying fuel).run r).1.outcome = .ok a ∧ ¬ call.operation.shape.Fits a ∧
      cause = .indexOutOfRange

/-- The call ends before there is an answer or a refusal. -/
def IsCut : Prop := ∃ why, ((call.underlying fuel).run r).1.outcome = .error (.interrupted why)

end Call

/-- The call tells its caller how it ended. -/
structure Faithful (fuel : Nat) (r : Registry) (call : Call) : Prop where
  /-- There is no warning if the call succeeds. -/
  quiet : call.Succeeds fuel r → call.warnings fuel r = []
  /-- There is one if it fails, and it names the operation and the cause. -/
  warns : ∀ cause, call.Fails fuel r cause →
    call.warnings fuel r = [.refused call.operation.name cause]
  /-- There is none if it is cut short. -/
  silent : call.IsCut fuel r → call.warnings fuel r = []
  /-- Only a run may be cut short. -/
  ends : call.operation ≠ .run → call.Succeeds fuel r ∨ ∃ cause, call.Fails fuel r cause
  /-- There is a reply if and only if the call succeeds or fails, which it does unless it is cut
  short. -/
  replies : ((∃ reply, call.Replies fuel r reply) ↔
    call.Succeeds fuel r ∨ ∃ cause, call.Fails fuel r cause) ∧
      ((call.Succeeds fuel r ∨ ∃ cause, call.Fails fuel r cause) ↔ ¬ call.IsCut fuel r)
  /-- The reply tells what was answered. -/
  result : ∀ a, call.Answers fuel r a → call.Replies fuel r (call.operation.shape.accepted a)
  handle : call.operation.shape = .handle →
    ∃ raw, call.Replies fuel r (.handle raw) ∧ (raw = 0 ↔ ∃ cause, call.Fails fuel r cause)
  status : call.operation.shape = .status →
    ∃ c, call.Replies fuel r (.status c) ∧ (c = 0 ↔ call.Succeeds fuel r) ∧
      ∀ cause, call.Fails fuel r cause → c = code cause ∧ c < 0
  verdict : call.operation = .run → ∀ c, call.Replies fuel r (.status c) →
    ((c = 0 ∨ c = 1 ∨ c = 2) ↔ call.Succeeds fuel r) ∧
      (¬ call.Succeeds fuel r → c < 0) ∧ ∀ cause, call.Fails fuel r cause → c = code cause
  getter : call.operation.shape.IsGetter → ∀ cause, call.Fails fuel r cause →
    ∃ reply, call.Replies fuel r reply ∧ reply.IsZero
  /-- A negative number names nothing, and nothing is changed. -/
  negative : r.Representable → call.NamesNegative →
    (∃ cause, call.Fails fuel r cause) ∧ ((perform fuel call).run r).2 = r

/-! ## Negative numbers -/

section Negative

variable {r : Registry}

/-- A negative number is none of a node or an arc. -/
theorem resolve_ne_ok (hr : r.Representable) {family : GraphFamily} {raw : family.key.Value}
    (hraw : family.NamesNegative raw) (graph : Handle) (kind : KeyKind) (key : Key kind) :
    r.resolve graph kind (family.named raw) ≠ .ok key := by
  cases family with
  | list => cases hraw
  | static =>
      intro hkey
      have hnamed : GraphFamily.static.named raw = .index (unsignedBound - 1) :=
        congrArg KeyRef.index (if_neg (Int.not_le.mpr hraw))
      rw [hnamed] at hkey
      obtain ⟨g, hg, hkey⟩ := bind_eq_ok.mp hkey
      -- the largest index is no number below a count
      have hlt : unsignedBound - 1 < g.count kind := by
        by_contra hge
        cases (if_neg hge : g.key kind (unsignedBound - 1) = _).symm.trans hkey
      have hcount := hr graph g hg kind
      omega

theorem resolve_of_mapGet {kind : KeyKind} {type : ValueType} {map : Handle} {key : KeyRef}
    {x : type.Value} (h : r.mapGet kind type map key = .ok x) :
    ∃ graph found, r.resolve graph kind key = .ok found := by
  obtain ⟨object, -, h⟩ := bind_eq_ok.mp h
  obtain ⟨⟨graph, values⟩, -, h⟩ := bind_eq_ok.mp h
  obtain ⟨typed, -, h⟩ := bind_eq_ok.mp h
  obtain ⟨found, hfound, -⟩ := bind_eq_ok.mp h
  exact ⟨graph, found, hfound⟩

theorem resolve_of_mapSet {kind : KeyKind} {type : ValueType} {map : Handle} {key : KeyRef}
    {value : type.Value} {u : Unit}
    (h : ((Registry.mapSet kind type map key value).run r).1.outcome = .ok u) :
    ∃ graph found, r.resolve graph kind key = .ok found := by
  unfold Registry.mapSet at h
  rw [Action.run_get_bind] at h
  obtain ⟨object, -, hrun⟩ := Action.run_lift_bind_of_ok h
  rw [hrun] at h
  obtain ⟨⟨graph, values⟩, -, hrun⟩ := Action.run_lift_bind_of_ok h
  rw [hrun] at h
  obtain ⟨found, hfound, -⟩ := Action.run_lift_bind_of_ok h
  exact ⟨graph, found, hfound⟩

theorem resolve_of_flow {solver : Handle} {arc : KeyRef} {x : Int} (h : r.flow solver arc = .ok x) :
    ∃ graph found, r.resolve graph .arc arc = .ok found := by
  obtain ⟨record, -, h⟩ := bind_eq_ok.mp h
  cases hresult : record.result with
  | none =>
      rw [hresult] at h
      cases h
  | some result =>
      rw [hresult] at h
      simp only at h
      split at h
      · cases h
      · obtain ⟨found, hfound, -⟩ := bind_eq_ok.mp h
        refine ⟨record.graph, found, ?_⟩
        unfold Registry.solverArc at hfound
        cases hresolve : r.resolve record.graph .arc arc with
        | ok key =>
            rw [hresolve] at hfound
            exact hfound
        | error cause =>
            rw [hresolve] at hfound
            cases hfound

/-- The calls with a negative key find nothing under it. -/
theorem not_succeeds_of_negative {call : Call} (hr : r.Representable) (h : call.NamesNegative)
    (fuel : Nat) : ¬ call.Succeeds fuel r := by
  obtain ⟨op, arguments⟩ := call
  rintro ⟨x, hx, -⟩
  cases op with
  | mapGet family =>
      obtain ⟨graph, found, hfound⟩ := resolve_of_mapGet (Logged.outcome_ofExcept_eq_ok.mp hx)
      exact resolve_ne_ok hr h graph _ found hfound
  | mapSet family =>
      obtain ⟨graph, found, hfound⟩ := resolve_of_mapSet hx
      exact resolve_ne_ok hr h graph _ found hfound
  | flow family =>
      obtain ⟨graph, found, hfound⟩ := resolve_of_flow (Logged.outcome_ofExcept_eq_ok.mp hx)
      exact resolve_ne_ok hr h graph _ found hfound
  | _ => cases h

theorem ne_run_of_negative {call : Call} (h : call.NamesNegative) : call.operation ≠ .run := by
  obtain ⟨op, arguments⟩ := call
  rintro ⟨⟩
  cases h

theorem ne_numberOf_of_negative {call : Call} (h : call.NamesNegative) :
    call.operation ≠ .numberOf := by
  obtain ⟨op, arguments⟩ := call
  rintro ⟨⟩
  cases h

/-- They are refused before anything is changed. -/
theorem snd_of_negative {call : Call} {fuel : Nat} {cause : Error} (h : call.NamesNegative)
    (hcause : call.Fails fuel r cause) : ((call.underlying fuel).run r).2 = r := by
  have hatomic : Action.AtomicAt r (call.underlying fuel) := by
    obtain ⟨op, arguments⟩ := call
    cases op with
    | mapGet family => exact fun _ _ => rfl
    | mapSet family => exact Registry.atomicAt_mapSet r _ _ _ _ _
    | flow family => exact fun _ _ => rfl
    | _ => cases h
  rcases hcause with hcause | ⟨a, -, hfits, -⟩
  · exact hatomic _ hcause
  · exact (hfits (fits_of_ne_numberOf (ne_numberOf_of_negative h) a)).elim

end Negative

/-! ## Replies -/

section Replies

variable {fuel : Nat} {r : Registry} {call : Call} {cause : Error}

/-- What can be told of an answer is told after it, and reports nothing. -/
theorem run_asked : (call.asked fuel).run r =
    (⟨((call.underlying fuel).run r).1.events, ((call.underlying fuel).run r).1.outcome.bind fun a =>
      (Logged.ofExcept (call.operation.shape.told a)).outcome⟩, ((call.underlying fuel).run r).2) := by
  unfold Call.asked
  rw [Action.run_bind]
  rcases (call.underlying fuel).run r with ⟨⟨events, fault | a⟩, r'⟩
  · rfl
  · have hnone : (Logged.ofExcept (call.operation.shape.told a)).events = [] := by
      cases call.operation.shape.told a <;> rfl
    simp only [Action.run_ofLogged, hnone, List.append_nil]
    rfl

theorem perform_of_answers {a : call.operation.shape.Result} (h : call.Answers fuel r a) :
    ((perform fuel call).run r).1 =
      ⟨((call.underlying fuel).run r).1.events, .ok (call.operation.shape.accepted a)⟩ := by
  have hasked : ((call.asked fuel).run r).1.outcome = .ok a := by
    rw [run_asked, h.1]
    exact Logged.outcome_ofExcept_eq_ok.mpr (Shape.told_of_fits h.2)
  rw [perform_eq, run_answer_ok hasked, run_asked]

theorem perform_of_fails (h : call.Fails fuel r cause) :
    ((perform fuel call).run r).1 =
      ⟨((call.underlying fuel).run r).1.events ++ [.refused call.operation.name cause],
        .ok (call.operation.shape.refused cause)⟩ := by
  have hasked : ((call.asked fuel).run r).1.outcome = .error (.refused cause) := by
    rw [run_asked]
    rcases h with h | ⟨a, ha, hfits, rfl⟩
    · rw [h]
      rfl
    · rw [ha]
      exact Logged.outcome_ofExcept_eq_error.mpr ⟨_, Shape.told_of_not_fits hfits, rfl⟩
  rw [perform_eq, run_answer_refused hasked, run_asked]

theorem perform_of_interrupted {why : Interruption}
    (h : ((call.underlying fuel).run r).1.outcome = .error (.interrupted why)) :
    ((perform fuel call).run r).1 =
      ⟨((call.underlying fuel).run r).1.events, .error (.interrupted why)⟩ := by
  have hasked : ((call.asked fuel).run r).1.outcome = .error (.interrupted why) := by
    rw [run_asked, h]
    rfl
  rw [perform_eq, run_answer_interrupted hasked, run_asked]

theorem perform_snd : ((perform fuel call).run r).2 = ((call.underlying fuel).run r).2 := by
  rw [perform_eq, run_answer_snd, run_asked]

theorem replies_of_answers {a : call.operation.shape.Result} (h : call.Answers fuel r a) :
    call.Replies fuel r (call.operation.shape.accepted a) := by
  rw [Call.Replies, perform_of_answers h]

theorem replies_of_fails (h : call.Fails fuel r cause) :
    call.Replies fuel r (call.operation.shape.refused cause) := by
  rw [Call.Replies, perform_of_fails h]

theorem not_replies_of_isCut (h : call.IsCut fuel r) (reply : Reply) :
    ¬ call.Replies fuel r reply := by
  obtain ⟨why, hwhy⟩ := h
  rw [Call.Replies, perform_of_interrupted hwhy]
  exact nofun

/-- A call succeeds, fails or is cut short. -/
theorem succeeds_or_fails_or_isCut (fuel : Nat) (r : Registry) (call : Call) :
    call.Succeeds fuel r ∨ (∃ cause, call.Fails fuel r cause) ∨ call.IsCut fuel r := by
  cases h : ((call.underlying fuel).run r).1.outcome with
  | ok a =>
      by_cases hfits : call.operation.shape.Fits a
      · exact .inl ⟨a, h, hfits⟩
      · exact .inr (.inl ⟨_, .inr ⟨a, h, hfits, rfl⟩⟩)
  | error fault =>
      cases fault with
      | refused cause => exact .inr (.inl ⟨cause, .inl h⟩)
      | interrupted why => exact .inr (.inr ⟨why, h⟩)

/-- A call replies what tells its answer, or what tells the cause of its failure. -/
theorem replies_iff {reply : Reply} : call.Replies fuel r reply ↔
    (∃ a, call.Answers fuel r a ∧ reply = call.operation.shape.accepted a) ∨
    ∃ cause, call.Fails fuel r cause ∧ reply = call.operation.shape.refused cause := by
  constructor
  · intro hreply
    rcases succeeds_or_fails_or_isCut fuel r call with ⟨a, ha⟩ | ⟨cause, hcause⟩ | hcut
    · exact .inl ⟨a, ha, Except.ok.inj (hreply.symm.trans (replies_of_answers ha))⟩
    · exact .inr ⟨cause, hcause, Except.ok.inj (hreply.symm.trans (replies_of_fails hcause))⟩
    · exact (not_replies_of_isCut hcut reply hreply).elim
  · rintro (⟨a, ha, rfl⟩ | ⟨cause, hcause, rfl⟩)
    · exact replies_of_answers ha
    · exact replies_of_fails hcause

theorem fails_unique {cause' : Error} (h : call.Fails fuel r cause) (h' : call.Fails fuel r cause') :
    cause' = cause := by
  rcases h with h | ⟨a, h, -, rfl⟩ <;> rcases h' with h' | ⟨a', h', -, rfl⟩
  · cases h.symm.trans h'
    rfl
  · cases h.symm.trans h'
  · cases h.symm.trans h'
  · rfl

theorem not_fails_of_succeeds (h : call.Succeeds fuel r) : ¬ call.Fails fuel r cause := by
  obtain ⟨a, ha, hfits⟩ := h
  rintro (hcause | ⟨a', ha', hfits', -⟩)
  · cases ha.symm.trans hcause
  · cases ha.symm.trans ha'
    exact hfits' hfits

theorem not_isCut_of_replies {reply : Reply} (h : call.Replies fuel r reply) :
    ¬ call.IsCut fuel r := fun hcut => not_replies_of_isCut hcut reply h

end Replies

section Shapes

variable {shape : Shape}

theorem Shape.accepted_handle (hshape : shape = .handle) {a : shape.Result} (ha : shape.Returns a) :
    ∃ raw, shape.accepted a = .handle raw ∧ raw ≠ 0 := by
  subst hshape
  exact ⟨_, rfl, ha⟩

theorem Shape.accepted_status (hshape : shape = .status) (a : shape.Result) :
    shape.accepted a = .status 0 := by
  subst hshape
  rfl

theorem Shape.refused_handle (hshape : shape = .handle) (cause : Error) :
    shape.refused cause = .handle 0 := by
  subst hshape
  rfl

/-- What tells a status or a verdict tells the cause of a failure by its code. -/
theorem Shape.refused_code (hshape : shape = .status ∨ shape = .verdict) (cause : Error) :
    shape.refused cause = .status (code cause) := by
  rcases hshape with rfl | rfl <;> rfl

theorem Shape.accepted_verdict (hshape : shape = .verdict) (a : shape.Result) :
    ∃ v : Verdict, shape.accepted a = .status v.code := by
  subst hshape
  exact ⟨a, rfl⟩

end Shapes

section Told

variable {fuel : Nat} {r : Registry} {call : Call}

/-- A call for a handle that has an end replies zero exactly if it fails. -/
theorem exists_handle (hshape : call.operation.shape = .handle)
    (hreturns : ∀ a, ((call.underlying fuel).run r).1.outcome = .ok a →
      call.operation.shape.Returns a)
    (hends : call.Succeeds fuel r ∨ ∃ cause, call.Fails fuel r cause) :
    ∃ raw, call.Replies fuel r (.handle raw) ∧ (raw = 0 ↔ ∃ cause, call.Fails fuel r cause) := by
  rcases hends with ⟨a, ha⟩ | ⟨cause, hcause⟩
  · obtain ⟨raw, hraw, hne⟩ := Shape.accepted_handle hshape (hreturns a ha.1)
    exact ⟨raw, hraw ▸ replies_of_answers ha,
      iff_of_false hne fun ⟨_, hcause⟩ => not_fails_of_succeeds ⟨a, ha⟩ hcause⟩
  · exact ⟨0, Shape.refused_handle hshape cause ▸ replies_of_fails hcause,
      iff_of_true rfl ⟨cause, hcause⟩⟩

/-- A call for a status that has an end replies zero exactly if it succeeds. -/
theorem exists_status (hshape : call.operation.shape = .status)
    (hends : call.Succeeds fuel r ∨ ∃ cause, call.Fails fuel r cause) :
    ∃ c, call.Replies fuel r (.status c) ∧ (c = 0 ↔ call.Succeeds fuel r) ∧
      ∀ cause, call.Fails fuel r cause → c = code cause ∧ c < 0 := by
  rcases hends with ⟨a, ha⟩ | ⟨cause, hcause⟩
  · exact ⟨0, Shape.accepted_status hshape a ▸ replies_of_answers ha, iff_of_true rfl ⟨a, ha⟩,
      fun cause hcause => (not_fails_of_succeeds ⟨a, ha⟩ hcause).elim⟩
  · refine ⟨code cause, Shape.refused_code (.inl hshape) cause ▸ replies_of_fails hcause, ?_, ?_⟩
    · exact iff_of_false (Int.ne_of_lt (code_neg cause)) fun h => not_fails_of_succeeds h hcause
    · intro cause' hcause'
      rw [fails_unique hcause hcause']
      exact ⟨rfl, code_neg cause⟩

/-- What a run replies is the code of a verdict exactly if it succeeds. -/
theorem verdict_of_replies (hshape : call.operation.shape = .verdict) {c : Int}
    (hc : call.Replies fuel r (.status c)) :
    ((c = 0 ∨ c = 1 ∨ c = 2) ↔ call.Succeeds fuel r) ∧
      (¬ call.Succeeds fuel r → c < 0) ∧ ∀ cause, call.Fails fuel r cause → c = code cause := by
  rcases replies_iff.mp hc with ⟨a, ha, hreply⟩ | ⟨cause, hcause, hreply⟩
  · obtain ⟨v, hv⟩ := Shape.accepted_verdict hshape a
    cases hreply.trans hv
    exact ⟨iff_of_true (code_verdict v) ⟨a, ha⟩, fun h => (h ⟨a, ha⟩).elim,
      fun cause hcause => (not_fails_of_succeeds ⟨a, ha⟩ hcause).elim⟩
  · cases hreply.trans (Shape.refused_code (.inr hshape) cause)
    have hneg := code_neg cause
    exact ⟨iff_of_false (by omega) fun h => not_fails_of_succeeds h hcause, fun _ => hneg,
      fun cause' hcause' => by rw [fails_unique hcause hcause']⟩

end Told

/-- What is told of a call on a registry with a sound table and small graphs. -/
theorem faithful {bound : Nat} {r : Registry} (hr : r.Bounded bound)
    (hbound : StaticDigraph.countLimit ≤ bound) (fuel : Nat) (call : Call) :
    Faithful fuel r call := by
  obtain ⟨-, ⟨hquiet, hends⟩, hreturns⟩ := orderly_underlying hr hbound fuel call
  have hnone : ((call.underlying fuel).run r).1.events.filter (·.level = .warn) = [] :=
    List.filter_eq_nil_iff.mpr fun e he => by simpa using hquiet e he
  have hreplies : call.Succeeds fuel r ∨ (∃ cause, call.Fails fuel r cause) →
      ∃ reply, call.Replies fuel r reply := by
    rintro (⟨a, ha⟩ | ⟨cause, hcause⟩)
    · exact ⟨_, replies_of_answers ha⟩
    · exact ⟨_, replies_of_fails hcause⟩
  have hwhole : ¬ call.IsCut fuel r → call.Succeeds fuel r ∨ ∃ cause, call.Fails fuel r cause :=
    fun hcut => (succeeds_or_fails_or_isCut fuel r call).imp_right fun h => h.resolve_right hcut
  -- only a run may end without an answer, so every other call replies
  have hdecided : call.operation ≠ .run → call.Succeeds fuel r ∨ ∃ cause, call.Fails fuel r cause :=
    fun hrun => hwhole fun ⟨why, hwhy⟩ => hrun (hends why hwhy)
  constructor
  case quiet =>
    rintro ⟨a, ha⟩
    rw [Call.warnings, perform_of_answers ha]
    exact hnone
  case warns =>
    intro cause hcause
    rw [Call.warnings, perform_of_fails hcause, List.filter_append, hnone]
    rfl
  case silent =>
    rintro ⟨why, hwhy⟩
    rw [Call.warnings, perform_of_interrupted hwhy]
    exact hnone
  case ends => exact hdecided
  case replies =>
    refine ⟨⟨fun ⟨reply, h⟩ => hwhole (not_isCut_of_replies h), hreplies⟩, fun h => ?_, hwhole⟩
    obtain ⟨reply, hreply⟩ := hreplies h
    exact not_isCut_of_replies hreply
  case result => exact fun a ha => replies_of_answers ha
  case handle =>
    intro hshape
    exact exists_handle hshape hreturns (hdecided fun hrun => by rw [hrun] at hshape; cases hshape)
  case status =>
    intro hshape
    exact exists_status hshape (hdecided fun hrun => by rw [hrun] at hshape; cases hshape)
  case verdict => exact fun hrun c => verdict_of_replies (by rw [hrun]; rfl)
  case getter =>
    exact fun hshape cause hcause => ⟨_, replies_of_fails hcause, Shape.isZero_refused hshape cause⟩
  case negative =>
    intro hrep hnegative
    obtain ⟨cause, hcause⟩ := (hdecided (ne_run_of_negative hnegative)).resolve_left
      (not_succeeds_of_negative hrep hnegative fuel)
    exact ⟨⟨cause, hcause⟩, perform_snd.trans (snd_of_negative hnegative hcause)⟩

/-! ## Reached registries -/

/-- The registry after some calls, each with the fuel that it was given. -/
def after (r : Registry) (calls : List (Nat × Call)) : Registry :=
  calls.foldl (fun r (fuel, call) => ((perform fuel call).run r).2) r

/-- The registry after some calls, beginning without objects. -/
def reached (calls : List (Nat × Call)) : Registry := after .empty calls

/-- One call lets a graph grow by one node or arc at most. -/
theorem bounded_after {bound : Nat} (hbound : StaticDigraph.countLimit ≤ bound)
    (calls : List (Nat × Call)) (r : Registry) (hr : r.Bounded bound) :
    (after r calls).Bounded (bound + calls.length) := by
  induction calls generalizing r bound with
  | nil => exact hr
  | cons first calls ih =>
      obtain ⟨fuel, call⟩ := first
      have hstep : ((perform fuel call).run r).2.Bounded (bound + 1) := by
        rw [perform_snd]
        exact (orderly_underlying hr hbound fuel call).keeps
      have hlength : bound + (calls.length + 1) = bound + 1 + calls.length := by omega
      rw [List.length_cons, hlength]
      exact ih (Nat.le_succ_of_le hbound) _ hstep

theorem bounded_reached (calls : List (Nat × Call)) :
    (reached calls).Bounded (StaticDigraph.countLimit + calls.length) :=
  bounded_after (Nat.le_refl _) calls _ (Registry.bounded_empty _)

/-- Before counts leave the range of 64 bits, almost as many calls have been made as there are
numbers of 64 bits. -/
theorem representable_reached {calls : List (Nat × Call)}
    (h : StaticDigraph.countLimit + calls.length < unsignedBound) :
    (reached calls).Representable :=
  fun _ _ hg kind => Nat.lt_of_le_of_lt ((bounded_reached calls).count_le hg kind) h

/-- Whatever calls were made before, a call tells its caller how it ended. -/
theorem reports_faithfully (calls : List (Nat × Call)) (fuel : Nat) (call : Call) :
    Faithful fuel (reached calls) call ∧
      (StaticDigraph.countLimit + calls.length < unsignedBound → (reached calls).Representable) :=
  ⟨faithful (bounded_reached calls) (Nat.le_add_right _ _) fuel call, representable_reached⟩

-- Zero is no handle.
example : ((perform 0 ⟨.addNode, (0, ())⟩).run .empty).1 =
    ⟨[.refused "list_digraph_add_node" .invalidHandle], .ok (.handle 0)⟩ := rfl

/-! ## A run without a reply -/

section Untold

open Registry

/-- The value of a key in a map over a graph that is built once. -/
def setLong (keys : KeyKind) (map : Handle) (key amount : Int) : Call :=
  ⟨.mapSet ⟨.static, keys, .long⟩, (map.toRaw, Word.clamp key, Word.clamp amount, ())⟩

/-- A map over a graph that is built once. -/
def newLongs (keys : KeyKind) : Call := ⟨.newMap ⟨.static, keys, .long⟩, (Shipment.graph.toRaw, ())⟩

/-- A solver is given a map. -/
def give (role : MapRole) (map : Handle) : Call :=
  ⟨.attach role, (Shipment.solver.toRaw, map.toRaw, ())⟩

/-- An arc to which nothing that is not negative can be added, and one that leads back: the requests
of `Shipment.brimming`, made by calls. -/
def brimming : List Call :=
  [⟨.newStaticDigraph, ()⟩, ⟨.newPairList, ()⟩,
    ⟨.pushPair, (Shipment.pairs.toRaw, Word.clamp 0, Word.clamp 1, ())⟩,
    ⟨.pushPair, (Shipment.pairs.toRaw, Word.clamp 1, Word.clamp 0, ())⟩,
    ⟨.build, (Shipment.graph.toRaw, Word.clamp 2, Shipment.pairs.toRaw, ())⟩, newLongs .node,
    setLong .node Shipment.supplies 0 9223372036854775806,
    setLong .node Shipment.supplies 1 (-9223372036854775806),
    ⟨.newSolver .static, (Shipment.graph.toRaw, Word.clamp 2, Word.clamp 1, Word.clamp 1, ())⟩,
    give .supply Shipment.supplies] ++
  [newLongs .arc, setLong .arc ⟨4, 1⟩ 0 9223372036854775806, give .lower ⟨4, 1⟩] ++
  [newLongs .arc, setLong .arc ⟨5, 1⟩ 0 9223372036854775807, setLong .arc ⟨5, 1⟩ 1 10,
    give .upper ⟨5, 1⟩] ++
  [newLongs .arc, setLong .arc ⟨6, 1⟩ 0 (-1), give .cost ⟨6, 1⟩]

/-- The solver is run. -/
def runSolver : Call := ⟨.run, (Shipment.solver.toRaw, ())⟩

/-- The flow of an arc above its lower bound may be no amount when the bound is added to it. A run
that comes to that sum is neither answered nor refused, and its caller is told nothing. -/
theorem overflow_untold :
    ((runSolver.underlying 20).run (reached (brimming.map (0, ·)))).1.outcome = .error .overflow ∧
      (∀ reply, ¬ runSolver.Replies 20 (reached (brimming.map (0, ·))) reply) ∧
      runSolver.warnings 20 (reached (brimming.map (0, ·))) = [] := by
  have hcut : ((runSolver.underlying 20).run (reached (brimming.map (0, ·)))).1.outcome =
      .error .overflow := error_of_match (by decide +kernel)
  have hfaithful := faithful (bounded_reached (brimming.map (0, ·))) (Nat.le_add_right _ _) 20 runSolver
  exact ⟨hcut, not_replies_of_isCut ⟨_, hcut⟩, hfaithful.silent ⟨_, hcut⟩⟩

end Untold

end Flat

end NetworkFlow
