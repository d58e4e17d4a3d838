import NetworkFlow.Proofs.Discharge
import NetworkFlow.Proofs.MaxFlow.Preflow

/-!
# Labels of push and relabel

A residual arc with room goes down by at most one label, and an arc that a node has
tried since it was last lifted does not go down at all. So a node that has tried
all its arcs is lifted by at least one. As a node with an excess reaches the source,
it is never lifted to `2 * n`.

The step of a discharge thus ends: lifting lowers what is left below `2 * n`; a push
goes down by one label, so with the labels fixed it lowers the sum of the labels'
rises over the flow; and in between the next arc of a row is taken up.

## Main results

* `dischargeStep_next`: what a step keeps, and that it lowers `progress`.
* `Labelled.not_reaches_target`: the source does not reach the target.
-/

namespace NetworkFlow.MaxFlow

open Finset Relation

variable {n m : Nat} {t : Terminals n m} {s s' : State n m} {u v : Fin n}

/-- A preflow with labels: residual arcs with room go down by at most one, those tried do not
go down. -/
structure Labelled (t : Terminals n m) (s : State n m) : Prop extends Preflow t s where
  label_source : s.label[t.source] = n
  label_target : s.label[t.target] = 0
  descends : ∀ r, 0 < t.room s.flow r →
    s.label[t.toNetwork.source r] ≤ s.label[t.toNetwork.target r] + 1
  tried : ∀ v : Fin n, ∀ r ∈ t.rows[v].toList.take s.current[v], 0 < t.room s.flow r →
    s.label[v] ≤ s.label[t.toNetwork.target r]

/-- A node that is discharged. -/
structure Discharged (t : Terminals n m) (s : State n m) (u : Fin n) : Prop where
  ne_source : u ≠ t.source
  ne_target : u ≠ t.target
  excess_pos : 0 < s.excess[u]

/-- A node that gets an excess waits for its turn. -/
def Waits (t : Terminals n m) (s : State n m) (v : Fin n) : Prop :=
  v ≠ t.source → v ≠ t.target → 0 < s.excess[v] → v ∈ s.active

/-- A node has a label that is higher by less than `n` than that of a node it reaches. -/
theorem Labelled.label_lt_of_reaches (h : Labelled t s) (hreach : ReflTransGen (t.Open s.flow) u v) :
    s.label[u] < s.label[v] + n := by
  have hpos : 0 < n := Nat.zero_lt_of_lt u.isLt
  have hstep : ∀ v w, t.Open s.flow v w →
      -((s.label[w] : Nat) : Int) ≤ -((s.label[v] : Nat) : Int) + 1 := by
    rintro v w ⟨r, hroom, rfl, rfl⟩
    have := h.descends r hroom
    omega
  have hle := le_add_of_reaches (f := fun v : Fin n => -((s.label[v] : Nat) : Int))
    (by omega) hstep hreach
  omega

/-- A node with an excess has a label below `2 * n`. -/
theorem Labelled.label_lt (h : Labelled t s) (hu : Discharged t s u) : s.label[u] < 2 * n := by
  have := h.label_lt_of_reaches (h.reaches_source hu.excess_pos hu.ne_target)
  rw [h.label_source] at this
  omega

/-- The source does not reach the target. -/
theorem Labelled.not_reaches_target (h : Labelled t s) :
    ¬ ReflTransGen (t.Open s.flow) t.source t.target := by
  intro hreach
  have := h.label_lt_of_reaches hreach
  rw [h.label_source, h.label_target] at this
  omega

section Progress

/-- How far the labels rise along the arcs. -/
def rise (t : Terminals n m) (label : Table Nat n) : Table Int m :=
  .ofFn fun a => (label[t.head[a]] : Int) - label[t.tail[a]]

theorem price_rise (label : Table Nat n) (r : ResidualArc m) : r.price (rise t label) =
    (label[t.toNetwork.target r] : Int) - label[t.toNetwork.source r] := by
  obtain ⟨a, backward⟩ := r
  cases backward <;> simp [ResidualArc.price, rise, Network.source, Network.target]

/-- What is left to be done: how far the nodes can be lifted, how far the flow can go down, and
the arcs that are still to be tried. -/
def progress (t : Terminals n m) (s : State n m) : Nat ×ₗ Nat ×ₗ Nat :=
  left (fun v : Fin n => 2 * n - s.label[v]) (t.slack (rise t s.label) s.flow)
    fun v : Fin n => t.rows[v].size - s.current[v]

theorem progress_lt_of_label {w : Fin n} (hw : s.label[w] < s'.label[w]) (hlt : s.label[w] < 2 * n)
    (hsame : ∀ v : Fin n, v ≠ w → s'.label[v] = s.label[v]) : progress t s' < progress t s :=
  left_lt_of_height (w := w) (by omega) fun v hv => by rw [hsame v hv]

theorem progress_lt_of_flow (hlabel : s'.label = s.label) (hwithin : t.Within s'.flow)
    (hless : costOf (rise t s.label) s'.flow < costOf (rise t s.label) s.flow) :
    progress t s' < progress t s := by
  unfold progress
  rw [hlabel]
  exact left_lt_of_slack (hwithin.slack_lt hless)

theorem progress_lt_of_current {w : Fin n} (hlabel : s'.label = s.label)
    (hflow : s'.flow = s.flow) (hw : s.current[w] < s'.current[w])
    (hlt : s.current[w] < t.rows[w].size)
    (hsame : ∀ v : Fin n, v ≠ w → s'.current[v] = s.current[v]) :
    progress t s' < progress t s := by
  unfold progress
  rw [hlabel, hflow]
  exact left_lt_of_untried (w := w) (by omega) fun v hv => by rw [hsame v hv]

end Progress

section Step

/-- A push keeps the labels right and lowers the flow. -/
theorem Labelled.push (hrows : t.rows = t.toNetwork.rows) (h : Labelled t s)
    (hu : Discharged t s u) {r : ResidualArc m} (hr : t.toNetwork.source r = u)
    (hcan : canPush t s u r = true)
    (hpush : push t s u r = .ok s') : Labelled t s' ∧ progress t s' < progress t s := by
  obtain ⟨hroom, hlabel⟩ : 0 < t.room s.flow r ∧
      s.label[u] = s.label[t.toNetwork.target r] + 1 := by
    simpa [canPush] using hcan
  have hpre := h.toPreflow.push hr hu.ne_target hu.excess_pos.le hpush
  obtain ⟨hflow, hcount⟩ := push_spec hr hpush
  have hamount : 0 < min s.excess[u] (t.room s.flow r) := lt_min hu.excess_pos hroom
  have hopen : ∀ r', 0 < t.room s'.flow r' → 0 < t.room s.flow r' ∨ r' = r.reverse := by
    intro r' hr'
    rw [hflow] at hr'
    exact t.open_of_open_sendAlong hamount.le hr'
  refine ⟨⟨hpre, ?_, ?_, ?_, ?_⟩, ?_⟩
  · rw [hcount.label_eq, h.label_source]
  · rw [hcount.label_eq, h.label_target]
  · intro r' hr'
    rw [hcount.label_eq]
    rcases hopen r' hr' with hr' | rfl
    · exact h.descends r' hr'
    · rw [t.source_reverse, t.target_reverse, hr]
      omega
  · intro v r' hmem hr'
    rw [hcount.current_eq] at hmem
    rw [hcount.label_eq]
    rcases hopen r' hr' with hr' | rfl
    · exact h.tried v r' hmem hr'
    · have hv := (Network.mem_row hrows).mp (List.mem_of_mem_take hmem)
      rw [t.source_reverse] at hv
      rw [t.target_reverse, hr, ← hv]
      omega
  · apply progress_lt_of_flow hcount.label_eq hpre.within
    rw [hflow, costOf_sendAlong, price_rise, hr]
    have : min s.excess[u] (t.room s.flow r) *
        ((s.label[t.toNetwork.target r] : Int) - (s.label[u] : Int)) < 0 := by
      apply mul_neg_of_pos_of_neg hamount
      omega
    omega

/-- A node that has tried all its arcs is lifted to a label above which no arc with room goes
down by more than one. -/
theorem relabel_spec (hrows : t.rows = t.toNetwork.rows) (h : Labelled t s)
    (hu : Discharged t s u) (hall : ∀ r, t.toNetwork.source r = u → 0 < t.room s.flow r →
      s.label[u] ≤ s.label[t.toNetwork.target r]) :
    s.label[u] < (relabel t s u).label[u] ∧
      ∀ r, t.toNetwork.source r = u → 0 < t.room s.flow r →
        (relabel t s u).label[u] ≤ s.label[t.toNetwork.target r] + 1 := by
  have hlabel : (relabel t s u).label[u] =
      ((t.rows[u].toList.filter (0 < t.room s.flow ·)).map
        (s.label[t.toNetwork.target ·])).min?.getD (2 * n) + 1 := by
    simp [relabel]
  have hmem : ∀ x, x ∈ (t.rows[u].toList.filter (0 < t.room s.flow ·)).map
      (s.label[t.toNetwork.target ·]) ↔ ∃ r, t.toNetwork.source r = u ∧ 0 < t.room s.flow r ∧
        s.label[t.toNetwork.target r] = x := by
    intro x
    simp [Network.mem_row hrows, and_assoc]
  -- the first arc of the way back to the source has room
  obtain ⟨v, ⟨r, hroom, hr, -⟩, -⟩ :=
    (h.reaches_source hu.excess_pos hu.ne_target).cases_head.resolve_left hu.ne_source
  cases hmin : ((t.rows[u].toList.filter (0 < t.room s.flow ·)).map
      (s.label[t.toNetwork.target ·])).min? with
  | none =>
      rw [List.min?_eq_none_iff] at hmin
      have := (hmem _).mpr ⟨r, hr, hroom, rfl⟩
      rw [hmin] at this
      cases this
  | some least =>
      rw [hlabel, hmin, Option.getD_some]
      obtain ⟨hleast, hle⟩ := List.min?_eq_some_iff.mp hmin
      obtain ⟨r', hr', hroom', rfl⟩ := (hmem _).mp hleast
      refine ⟨Nat.lt_succ_of_le (hall r' hr' hroom'), fun r'' hr'' hroom'' => ?_⟩
      exact Nat.succ_le_succ (hle _ ((hmem _).mpr ⟨r'', hr'', hroom'', rfl⟩))

/-- Lifting a node that has tried all its arcs keeps the labels right. -/
theorem Labelled.relabel (hrows : t.rows = t.toNetwork.rows) (h : Labelled t s)
    (hu : Discharged t s u) (hall : ∀ r, t.toNetwork.source r = u → 0 < t.room s.flow r →
      s.label[u] ≤ s.label[t.toNetwork.target r]) :
    Labelled t (relabel t s u) ∧ progress t (MaxFlow.relabel t s u) < progress t s := by
  obtain ⟨hlt, hle⟩ := relabel_spec hrows h hu hall
  have hsame : ∀ v : Fin n, v ≠ u → (MaxFlow.relabel t s u).label[v] = s.label[v] := by
    intro v hv
    exact Table.getElem_set_of_ne _ _ (Ne.symm hv)
  have hge : ∀ v : Fin n, s.label[v] ≤ (MaxFlow.relabel t s u).label[v] := by
    intro v
    by_cases hv : v = u
    · rw [hv]
      exact hlt.le
    · rw [hsame v hv]
  refine ⟨⟨⟨h.within, h.excess_eq, h.outflow_nonpos, h.inner⟩, ?_, ?_, ?_, ?_⟩, ?_⟩
  · rw [hsame _ hu.ne_source.symm, h.label_source]
  · rw [hsame _ hu.ne_target.symm, h.label_target]
  · intro r hroom
    have htarget := hge (t.toNetwork.target r)
    by_cases hr : t.toNetwork.source r = u
    · have := hle r hr hroom
      rw [hr]
      omega
    · have := h.descends r hroom
      rw [hsame _ hr]
      omega
  · intro v r hmem hroom
    by_cases hv : v = u
    · subst hv
      simp [MaxFlow.relabel] at hmem
    · have hcurrent : (MaxFlow.relabel t s u).current[v] = s.current[v] :=
        Table.getElem_set_of_ne _ _ (Ne.symm hv)
      rw [hcurrent] at hmem
      rw [hsame v hv]
      exact (h.tried v r hmem hroom).trans (hge _)
  · exact progress_lt_of_label hlt (h.label_lt hu) hsame

/-- Taking up the next arc keeps the labels right if the arc before could not be used. -/
theorem Labelled.advance (hrows : t.rows = t.toNetwork.rows) (h : Labelled t s)
    {r : ResidualArc m} (hr : t.rows[u][s.current[u]]? = some r)
    (hcan : canPush t s u r = false) :
    Labelled t { s with current := s.current.set u (s.current[u] + 1) } ∧
      progress t { s with current := s.current.set u (s.current[u] + 1) } < progress t s := by
  obtain ⟨hlt, -⟩ := Array.getElem?_eq_some_iff.mp hr
  have hsource := Network.source_of_place hrows hr
  refine ⟨⟨⟨h.within, h.excess_eq, h.outflow_nonpos, h.inner⟩, h.label_source, h.label_target,
    h.descends, ?_⟩, ?_⟩
  · intro v r' hmem hroom
    by_cases hv : v = u
    · subst hv
      rw [Table.getElem_set_self] at hmem
      rcases Network.mem_take_succ hr hmem with hmem | rfl
      · exact h.tried v r' hmem hroom
      · have hdescends := h.descends r' hroom
        rw [hsource] at hdescends
        by_contra hgt
        have hdown : s.label[t.toNetwork.target r'] < s.label[v] := not_le.mp hgt
        have : canPush t s v r' = true := by
          simp only [canPush, decide_eq_true_eq]
          exact ⟨hroom, by omega⟩
        rw [hcan] at this
        cases this
    · rw [Table.getElem_set_of_ne _ _ (Ne.symm hv)] at hmem
      exact h.tried v r' hmem hroom
  · refine progress_lt_of_current rfl rfl ?_ hlt fun v hv => ?_
    · simp
    · exact Table.getElem_set_of_ne _ _ (Ne.symm hv)

/-- A step of a discharge keeps the labels right, makes progress and lets no other node with an
excess drop out of the queue. -/
theorem dischargeStep_next (hrows : t.rows = t.toNetwork.rows) (h : Labelled t s)
    (hsource : u ≠ t.source) (htarget : u ≠ t.target) (hwaits : ∀ v, v ≠ u → Waits t s v)
    (hstep : dischargeStep t u s = .next s') :
    Labelled t s' ∧ progress t s' < progress t s ∧ ∀ v, v ≠ u → Waits t s' v := by
  have hcases := dischargeStep_cases t u s
  rw [hstep] at hcases
  cases hcases with
  | lifted hpos hnone =>
      have hall : ∀ r, t.toNetwork.source r = u → 0 < t.room s.flow r →
          s.label[u] ≤ s.label[t.toNetwork.target r] := by
        intro r hr hroom
        exact h.tried u r (Network.mem_take_of_none hrows hnone hr) hroom
      obtain ⟨hlabelled, hprogress⟩ := h.relabel hrows ⟨hsource, htarget, hpos⟩ hall
      exact ⟨hlabelled, hprogress, hwaits⟩
  | pushed hpos hr hcan hpush =>
      have hr' := Network.source_of_place hrows hr
      obtain ⟨hlabelled, hprogress⟩ := h.push hrows ⟨hsource, htarget, hpos⟩ hr' hcan hpush
      obtain ⟨-, hcount⟩ := push_spec hr' hpush
      refine ⟨hlabelled, hprogress, fun v hv hs ht hexcess => ?_⟩
      rcases hcount.joins v hs ht hexcess with hold | hnew
      · exact hcount.waits v (hwaits v hv hs ht hold)
      · exact hnew
  | moved _ hr hcan =>
      obtain ⟨hlabelled, hprogress⟩ := h.advance hrows hr hcan
      exact ⟨hlabelled, hprogress, hwaits⟩

end Step

end NetworkFlow.MaxFlow
