import NetworkFlow.Proofs.Iteration
import NetworkFlow.Proofs.MaxFlow.Labels

/-!
# Push and relabel finds a maximum flow

A discharge makes progress or finds nothing to do, and then the queue is shorter: so
the loop over the queue ends. When the queue is empty, no node but source and target
holds anything, and the source does not reach the target; the nodes that it reaches
are a cut that the flow fills.

Any network can be given. A negative capacity counts as zero, self-loops and arcs
into the source do no harm.

## Main results

* `exists_run`: the search ends.
* `run_ok`, `run_error`: it ends with a maximum flow or is refused because a sum is out
  of range.
-/

namespace NetworkFlow.MaxFlow

open Finset Relation

variable {n m : Nat} {t : Terminals n m} {s s' : State n m} {u : Fin n} {fuel : Nat}
  {cause : Error}

section Discharge

/-- A discharge step ends with the state as it is, without an excess, or with a refusal. -/
theorem dischargeStep_done {o : Except Error (State n m)}
    (hstep : dischargeStep t u s = .done o) :
    (o = .ok s ∧ s.excess[u] ≤ 0) ∨ o = .error .arithmeticOverflow := by
  have hcases := dischargeStep_cases t u s
  rw [hstep] at hcases
  cases hcases with
  | ended hdone => exact Or.inl ⟨rfl, hdone⟩
  | refused _ _ hpush =>
      rw [push_error hpush]
      exact Or.inr rfl

theorem exists_discharge (hrows : t.rows = t.toNetwork.rows) (h : Labelled t s)
    (hsource : u ≠ t.source) (htarget : u ≠ t.target) (hwaits : ∀ v, v ≠ u → Waits t s v) :
    ∃ fuel o, discharge t fuel s u = .ok o := by
  refine exists_iterate (P := fun s => Labelled t s ∧ ∀ v, v ≠ u → Waits t s v)
    (InvImage.wf (progress t) wellFounded_lt) (fun _ _ => ⟨_, rfl⟩) ?_ ⟨h, hwaits⟩
  rintro s₁ s₂ ⟨h₁, hwaits₁⟩ hstep
  obtain ⟨h₂, hless, hwaits₂⟩ :=
    dischargeStep_next hrows h₁ hsource htarget hwaits₁ (Except.ok.inj hstep)
  exact ⟨⟨h₂, hwaits₂⟩, hless⟩

/-- What a discharge that is not refused leaves. -/
theorem discharge_ok (hrows : t.rows = t.toNetwork.rows) (h : Labelled t s)
    (hsource : u ≠ t.source) (htarget : u ≠ t.target) (hwaits : ∀ v, v ≠ u → Waits t s v)
    (hdischarge : discharge t fuel s u = .ok (.ok s')) :
    Labelled t s' ∧ (∀ v, Waits t s' v) ∧ (s' = s ∨ progress t s' < progress t s) := by
  refine iterate_invariant
    (P := fun s₁ => Labelled t s₁ ∧ (∀ v, v ≠ u → Waits t s₁ v) ∧
      (s₁ = s ∨ progress t s₁ < progress t s))
    (Q := fun o => ∀ s', o = .ok s' → Labelled t s' ∧ (∀ v, Waits t s' v) ∧
      (s' = s ∨ progress t s' < progress t s))
    ?_ ?_ ⟨h, hwaits, Or.inl rfl⟩ hdischarge s' rfl
  · rintro s₁ s₂ ⟨h₁, hwaits₁, hless⟩ hstep
    obtain ⟨h₂, hless', hwaits₂⟩ :=
      dischargeStep_next hrows h₁ hsource htarget hwaits₁ (Except.ok.inj hstep)
    refine ⟨h₂, hwaits₂, Or.inr ?_⟩
    rcases hless with rfl | hless
    · exact hless'
    · exact hless'.trans hless
  · rintro s₁ o ⟨h₁, hwaits₁, hless⟩ hstep s₂ rfl
    rcases dischargeStep_done (Except.ok.inj hstep) with ⟨heq, hexcess⟩ | heq
    · cases heq
      refine ⟨h₁, fun v => ?_, hless⟩
      by_cases hv : v = u
      · subst hv
        intro _ _ hpos
        omega
      · exact hwaits₁ v hv
    · cases heq

theorem discharge_error (hdischarge : discharge t fuel s u = .ok (.error cause)) :
    cause = .arithmeticOverflow := by
  refine iterate_invariant (P := fun _ => True)
    (Q := fun o : Except Error (State n m) => ∀ cause, o = .error cause →
      cause = .arithmeticOverflow) (fun _ _ _ _ => trivial) ?_ trivial hdischarge cause rfl
  rintro s₁ o - hstep cause rfl
  rcases dischargeStep_done (Except.ok.inj hstep) with ⟨heq, -⟩ | heq
  · cases heq
  · cases heq
    rfl

theorem discharge_mono {fuel' : Nat} (hfuel : fuel ≤ fuel') :
    Persists (discharge t fuel s u) (discharge t fuel' s u) :=
  .iterate (fun _ => .rfl) hfuel

end Discharge

section Queue

/-- A state between two discharges: every node with an excess waits. -/
structure Queued (t : Terminals n m) (s : State n m) : Prop extends Labelled t s where
  waits : ∀ v, Waits t s v

/-- What is left to be done, the nodes that wait last. -/
def queueProgress (t : Terminals n m) (s : State n m) : (Nat ×ₗ Nat ×ₗ Nat) ×ₗ Nat :=
  toLex (progress t s, s.active.length)

/-- The state in which the head of the queue is about to be discharged. -/
theorem Queued.pop (h : Queued t s) {rest : List (Fin n)} (hactive : s.active = u :: rest) :
    Labelled t { s with active := rest } ∧ u ≠ t.source ∧ u ≠ t.target ∧
      ∀ v, v ≠ u → Waits t { s with active := rest } v := by
  have hu := h.inner u (by simp [hactive])
  refine ⟨⟨⟨h.within, h.excess_eq, h.outflow_nonpos, fun v hv => ?_⟩, h.label_source,
    h.label_target, h.descends, h.tried⟩, hu.1, hu.2, fun v hv hs ht hpos => ?_⟩
  · exact h.inner v (by simp [hactive, show v ∈ rest from hv])
  · have hmem := h.waits v hs ht hpos
    rw [hactive, List.mem_cons] at hmem
    exact hmem.resolve_left hv

theorem exists_queueStep (hrows : t.rows = t.toNetwork.rows) (h : Queued t s) :
    ∃ fuel o, queueStep t fuel s = .ok o := by
  unfold queueStep
  cases hactive : s.active with
  | nil => exact ⟨0, _, rfl⟩
  | cons u rest =>
      obtain ⟨hlabelled, hsource, htarget, hwaits⟩ := h.pop hactive
      obtain ⟨fuel, o, ho⟩ := exists_discharge hrows hlabelled hsource htarget hwaits
      cases o with
      | ok s' => exact ⟨fuel, .next s', bind_eq_ok.mpr ⟨_, ho, rfl⟩⟩
      | error cause => exact ⟨fuel, .done (.error cause), bind_eq_ok.mpr ⟨_, ho, rfl⟩⟩

theorem queueStep_next (hrows : t.rows = t.toNetwork.rows) (h : Queued t s)
    (hstep : queueStep t fuel s = .ok (.next s')) :
    Queued t s' ∧ queueProgress t s' < queueProgress t s := by
  rcases queueStep_cases hstep with
    ⟨-, ⟨⟩⟩ | ⟨u, rest, _, hactive, hdischarge, ⟨_, -, ⟨⟩⟩ | ⟨_, rfl, ⟨⟩⟩⟩
  obtain ⟨hlabelled, hsource, htarget, hwaits⟩ := h.pop hactive
  obtain ⟨h', hwaits', hless⟩ := discharge_ok hrows hlabelled hsource htarget hwaits hdischarge
  refine ⟨⟨h', hwaits'⟩, ?_⟩
  rcases hless with heq | hless
  · rw [heq]
    refine Prod.Lex.toLex_lt_toLex.mpr (Or.inr ⟨rfl, ?_⟩)
    simp [hactive]
  · exact Prod.Lex.toLex_lt_toLex.mpr (Or.inl hless)

theorem queueStep_done {o : Except Error (State n m)}
    (hstep : queueStep t fuel s = .ok (.done o)) :
    (o = .ok s ∧ s.active = []) ∨ o = .error .arithmeticOverflow := by
  rcases queueStep_cases hstep with
    ⟨hactive, ⟨⟩⟩ | ⟨u, rest, _, -, hdischarge, ⟨_, rfl, ⟨⟩⟩ | ⟨_, -, ⟨⟩⟩⟩
  · exact Or.inl ⟨rfl, hactive⟩
  · rw [discharge_error hdischarge]
    exact Or.inr rfl

theorem queueStep_mono {fuel' : Nat} (hfuel : fuel ≤ fuel') :
    Persists (queueStep t fuel s) (queueStep t fuel' s) := by
  unfold queueStep
  split
  · exact .rfl
  · exact (discharge_mono hfuel).bind fun _ => .rfl

/-- The amounts are checked, so nothing but the fuel stops a discharge. -/
theorem discharge_ne_overflow : discharge t fuel s u ≠ .error .overflow :=
  iterate_ok_ne_overflow

theorem queueStep_ne_overflow : queueStep t fuel s ≠ .error .overflow := by
  unfold queueStep
  split
  · exact nofun
  · refine bind_ne_overflow discharge_ne_overflow fun o _ => ?_
    cases o <;> exact nofun

end Queue

section Start

/-- The state on the way to the start: the residual arcs of a list are full, and no arc carries
anything that does not leave the source. -/
structure Filling (t : Terminals n m) (done : List (ResidualArc m)) (s : State n m) : Prop
    extends Preflow t s where
  label_eq : s.label = (Table.const n 0).set t.source n
  current_eq : s.current = .const n 0
  only : ∀ a : Fin m, s.flow[a] = 0 ∨ t.tail[a] = t.source
  full : ∀ r ∈ done, r.backward = false → t.room s.flow r ≤ 0
  waits : ∀ v, Waits t s v

/-- An arc that is not filled is full already, or is run through backward. -/
theorem Filling.skip {done : List (ResidualArc m)} (h : Filling t done s) {r : ResidualArc m}
    (hskip : r.backward = true ∨ t.room s.flow r ≤ 0) : Filling t (r :: done) s := by
  refine ⟨h.toPreflow, h.label_eq, h.current_eq, h.only, fun r' hr' hforward => ?_, h.waits⟩
  rcases List.mem_cons.mp hr' with rfl | hr'
  · exact hskip.resolve_left (by simp [hforward])
  · exact h.full r' hr' hforward

/-- Sending all that an arc out of the source has room for fills it. -/
theorem Filling.sent {done : List (ResidualArc m)} (h : Filling t done s) {r : ResidualArc m}
    (hr : t.toNetwork.source r = t.source) (hforward : r.backward = false)
    (hroom : 0 < t.room s.flow r) (hflow : s'.flow = sendAlong s.flow r (t.room s.flow r))
    (hcount : Counted t s s' (gainAlong t r (t.room s.flow r))) : Filling t (r :: done) s' := by
  refine ⟨h.toPreflow.sent hroom.le le_rfl (fun hne => absurd hr hne) hflow hcount,
    hcount.label_eq.trans h.label_eq, hcount.current_eq.trans h.current_eq, fun a => ?_,
    fun r' hr' hforward' => ?_, fun v hs ht hpos => ?_⟩
  · rw [hflow]
    by_cases ha : r.arc = a
    · subst ha
      right
      simpa [Network.source, hforward] using hr
    · rw [getElem_sendAlong, if_neg ha]
      exact h.only a
  · rw [hflow]
    by_cases harc : r.arc = r'.arc
    · have heq : r' = r := by
        rcases ResidualArc.eq_or_eq_reverse harc with heq | heq
        · exact heq
        · rw [heq, ResidualArc.reverse, hforward] at hforward'
          cases hforward'
      rw [heq, t.room_sendAlong_self]
      omega
    · rw [t.room_sendAlong_of_ne harc]
      refine h.full r' ?_ hforward'
      apply (List.mem_cons.mp hr').resolve_left
      rintro rfl
      exact harc rfl
  · rcases hcount.joins v hs ht hpos with hold | hnew
    · exact hcount.waits v (h.waits v hs ht hold)
    · exact hnew

/-- Filling an arc out of the source adds it to the full ones. -/
theorem Filling.fill {done : List (ResidualArc m)} (h : Filling t done s) {r : ResidualArc m}
    (hr : t.toNetwork.source r = t.source) (hfill : fill t s r = .ok s') :
    Filling t (r :: done) s' := by
  unfold MaxFlow.fill at hfill
  simp only at hfill
  split at hfill
  · rename_i hskip
    cases hfill
    exact h.skip hskip
  · rename_i hskip
    rw [not_or, Bool.not_eq_true, not_le] at hskip
    rw [← hr] at hfill
    obtain ⟨s₁, h₁, h₂⟩ := bind_eq_ok.mp hfill
    obtain ⟨hflow, hcount⟩ := counted_along h₁ h₂
    exact h.sent hr hskip.1 hskip.2 hflow ⟨hcount.label_eq, hcount.current_eq, hcount.excess_eq,
      hcount.waits, hcount.inner, hcount.joins⟩

theorem Filling.foldlM {rs done : List (ResidualArc m)} (h : Filling t done s)
    (hrs : ∀ r ∈ rs, t.toNetwork.source r = t.source) (hfold : rs.foldlM (MaxFlow.fill t) s = .ok s') :
    Filling t (rs.reverse ++ done) s' := by
  induction rs generalizing s done with
  | nil =>
      cases hfold
      exact h
  | cons r rs ih =>
      rw [List.foldlM_cons] at hfold
      obtain ⟨s₁, hfill, hrest⟩ := bind_eq_ok.mp hfold
      have := ih (h.fill (hrs r (by simp)) hfill) (fun r' hr' => hrs r' (by simp [hr'])) hrest
      simpa using this

/-- Before any arc is filled. -/
theorem filling_start (hcap : ∀ a : Fin m, 0 ≤ t.cap[a]) : Filling t []
    { flow := .const m 0, excess := .const n 0, label := (Table.const n 0).set t.source n
      current := .const n 0, active := [] } := by
  refine ⟨⟨fun a => by simp [hcap a], fun v _ => ?_, fun v _ => ?_, by simp⟩, rfl, rfl,
    fun a => by simp, by simp, fun v _ _ hpos => ?_⟩
  · simp [Network.outflow]
  · simp [Network.outflow]
  · simp at hpos

/-- The search starts with labels that are right. -/
theorem queued_start (hrows : t.rows = t.toNetwork.rows) (hne : t.source ≠ t.target)
    (hcap : ∀ a : Fin m, 0 ≤ t.cap[a]) (h : start t = .ok s) : Queued t s := by
  have hmem : ∀ r ∈ t.rows[t.source].toList, t.toNetwork.source r = t.source :=
    fun r hr => (Network.mem_row hrows).mp hr
  have hfull := (filling_start hcap).foldlM hmem h
  refine ⟨⟨hfull.toPreflow, ?_, ?_, fun r hroom => ?_, fun v r hr => ?_⟩, hfull.waits⟩
  · simp [hfull.label_eq]
  · simp [hfull.label_eq, Table.getElem_set, hne]
  · rw [hfull.label_eq]
    by_cases hr : t.toNetwork.source r = t.source
    · -- an arc out of the source has room only if it runs back to the source
      have htarget : t.toNetwork.target r = t.source := by
        cases hback : r.backward with
        | false =>
            have hdone : r ∈ t.rows[t.source].toList.reverse ++ [] := by
              simpa using (Network.mem_row hrows).mpr hr
            have := hfull.full r hdone hback
            omega
        | true =>
            rw [Network.room, hback, if_pos rfl] at hroom
            rw [Network.target, hback, if_pos rfl]
            exact (hfull.only r.arc).resolve_left (by omega)
      rw [hr, htarget]
      omega
    · rw [Table.getElem_set_of_ne _ _ (Ne.symm hr), Table.getElem_const]
      omega
  · rw [hfull.current_eq, Table.getElem_const] at hr
    simp at hr

theorem fill_error {r : ResidualArc m} (h : fill t s r = .error cause) :
    cause = .arithmeticOverflow := by
  unfold fill at h
  simp only at h
  split at h
  · cases h
  · rcases bind_eq_error.mp h with h | ⟨s₁, -, h⟩
    · exact addExcess_error h
    · exact addExcess_error h

theorem start_error (h : start t = .error cause) : cause = .arithmeticOverflow := by
  obtain ⟨r, -, s, hfill⟩ := exists_error_of_foldlM h
  exact fill_error hfill

end Start

section Run

/-- A network with no capacity below zero. -/
def clip (net : Network n m) : Network n m := { net with cap := net.cap.map (max · 0) }

/-- A network with no capacity below zero and the two special nodes. -/
def terminals (net : Network n m) (source target : Fin n) : Terminals n m :=
  { clip net with rows := (clip net).rows, source, target }

theorem run_eq (fuel : Nat) (net : Network n m) (source target : Fin n) :
    run fuel net source target =
      match start (terminals net source target) with
      | .error cause => .ok (.error cause)
      | .ok s => (iterate fuel (queueStep (terminals net source target) fuel) s).map
          fun result => result.map (·.flow) := rfl

/-- A flow from a source to a target that fills a cut between them. -/
structure Maximal (net : Network n m) (source target : Fin n) (flow : Table Int m) : Prop where
  within : net.Within flow
  balanced : ∀ v, v ≠ source → v ≠ target → net.outflow flow v = 0
  cut : ∃ nodes, source ∈ nodes ∧ target ∉ nodes ∧ net.Closed flow nodes

/-- When no node waits, the flow is maximal. -/
theorem Queued.maximal (h : Queued t s) (hactive : s.active = []) :
    Maximal t.toNetwork t.source t.target s.flow := by
  refine ⟨h.within, fun v hs ht => ?_, t.reachable s.flow t.source, ?_, ?_, ?_⟩
  · have hexcess := h.excess_eq v ht
    have hnonpos := h.outflow_nonpos v hs
    have hwaits := h.waits v hs ht
    rw [hactive] at hwaits
    by_contra hne
    exact absurd (hwaits (by omega)) (by simp)
  · exact Network.self_mem_reachable _
  · rw [Network.mem_reachable]
    exact h.not_reaches_target
  · exact Network.closed_reachable _

variable {net : Network n m} {source target : Fin n}

section Cut

variable {flow : Table Int m}

/-- What leaves a cut leaves the source. -/
theorem sum_outflow_cut (hbalanced : ∀ v, v ≠ source → v ≠ target → net.outflow flow v = 0)
    {nodes : Finset (Fin n)} (hsource : source ∈ nodes) (htarget : target ∉ nodes) :
    ∑ v ∈ nodes, net.outflow flow v = net.outflow flow source := by
  refine sum_eq_single_of_mem source hsource fun v hv hne => hbalanced v hne ?_
  rintro rfl
  exact htarget hv

/-- What leaves the source enters the target. -/
theorem outflow_target_eq (hne : source ≠ target)
    (hbalanced : ∀ v, v ≠ source → v ≠ target → net.outflow flow v = 0) :
    net.outflow flow target = -net.outflow flow source := by
  have htotal := net.sum_outflow flow
  rw [← add_sum_erase univ _ (mem_univ target), sum_outflow_cut hbalanced (by simpa using hne)
    (by simp)] at htotal
  omega

end Cut

/-- The search ends. -/
theorem exists_run (net : Network n m) (hne : source ≠ target) :
    ∃ fuel o, run fuel net source target = .ok o := by
  simp only [run_eq]
  split
  · exact ⟨0, _, rfl⟩
  · rename_i s hstart
    have hqueued := queued_start rfl hne (fun a => by simp [terminals, clip]) hstart
    have hends : ∃ fuel o,
        iterate fuel (queueStep (terminals net source target) fuel) s = .ok o := by
      refine exists_iterate_fueled (P := Queued (terminals net source target))
        (InvImage.wf (queueProgress (terminals net source target)) wellFounded_lt) ?_ ?_ ?_ hqueued
      · intro f f' s hf
        exact queueStep_mono hf
      · intro s hs
        exact exists_queueStep rfl hs
      · intro f s s' hs hstep
        exact queueStep_next rfl hs hstep
    obtain ⟨fuel, o, ho⟩ := hends
    exact ⟨fuel, o.map (·.flow), by rw [ho]; rfl⟩

theorem run_mono {fuel' : Nat} (hfuel : fuel ≤ fuel') :
    Persists (run fuel net source target) (run fuel' net source target) := by
  rw [run_eq, run_eq]
  split
  · exact .rfl
  · intro h
    rw [Persists.iterate (fun _ => queueStep_mono hfuel) hfuel fun heq => h (by rw [heq]; rfl)]

theorem run_ne_overflow : run fuel net source target ≠ .error .overflow := by
  rw [run_eq]
  split
  · exact nofun
  · rename_i s _
    have hends : iterate fuel (queueStep (terminals net source target) fuel) s ≠
        .error .overflow :=
      iterate_ne_overflow (P := fun _ => True) (fun _ _ => queueStep_ne_overflow)
        (fun _ _ _ _ => trivial) trivial
    intro h
    cases hresult : iterate fuel (queueStep (terminals net source target) fuel) s with
    | ok o => simp [hresult, Except.map] at h
    | error why =>
        rw [hresult] at h hends
        exact hends (congrArg _ (Except.error.inj h))

/-- A flow that the search returns is maximal. -/
theorem run_ok (hne : source ≠ target) {flow : Table Int m}
    (h : run fuel net source target = .ok (.ok flow)) :
    Maximal (clip net) source target flow := by
  rw [run_eq] at h
  split at h
  · cases h
  · rename_i s hstart
    have hqueued := queued_start rfl hne (fun a => by simp [terminals, clip]) hstart
    obtain ⟨o, ho, hmap⟩ := map_eq_ok.mp h
    refine iterate_invariant (P := Queued _)
      (Q := fun o => ∀ flow, o.map (·.flow) = .ok flow → Maximal (clip net) source target flow)
      (fun s s' hs hstep => (queueStep_next rfl hs hstep).1) ?_ hqueued ho flow hmap
    intro s o hs hstep flow hflow
    rcases queueStep_done hstep with ⟨rfl, hactive⟩ | rfl
    · cases hflow
      exact hs.maximal hactive
    · cases hflow

/-- A refusal is always for a sum that is out of range. -/
theorem run_error (h : run fuel net source target = .ok (.error cause)) :
    cause = .arithmeticOverflow := by
  rw [run_eq] at h
  split at h
  · rename_i hstart
    cases h
    exact start_error hstart
  · obtain ⟨o, ho, hmap⟩ := map_eq_ok.mp h
    refine iterate_invariant (P := fun _ => True)
      (Q := fun o => ∀ cause, o.map (·.flow) = .error cause → cause = .arithmeticOverflow)
      (fun _ _ _ _ => trivial) ?_ trivial ho cause hmap
    intro s o _ hstep cause hcause
    rcases queueStep_done hstep with ⟨rfl, -⟩ | rfl
    · cases hcause
    · cases hcause
      rfl

end Run

end NetworkFlow.MaxFlow
