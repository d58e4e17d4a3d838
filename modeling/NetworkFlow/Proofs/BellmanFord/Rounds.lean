import NetworkFlow.Proofs.BellmanFord.Walks

/-!
# Bellman-Ford finds distances or a negative cycle

Going back along the arcs that improved the nodes last never makes a distance larger
than the arcs' costs say, and the arc relaxed last on a way back to its start makes
the difference strict: so every such closed way is a cycle of negative cost.

That there is one if the last round still relaxes an arc is shown by stamping every
node with the round in which it was improved last. An arc is relaxed only if its tail
was improved in the same round or the round before, so stamps fall by at most one
on the way back: from a node with the stamp `n` one can go back `n` times.

## Main results

* `run_converged`: final distances are costs of walks, and no arc undercuts them.
* `run_negativeCycle`: the cycle that is returned has a negative cost and no repeated
  node.
-/

namespace NetworkFlow.BellmanFord

open scoped ExactCosts

variable {n : Nat} {ι : Type} {g : CostedArcs n ι Int} {arcs : List ι} {s : Labels n ι Int}
  {u v w : Fin n}

section Labels

/-- What is true of the labels at any time. -/
structure Labels.Valid (g : CostedArcs n ι Int) (arcs : List ι) (s : Labels n ι Int) : Prop where
  attained : ∀ v : Fin n, s.dist[v] ≤ 0 ∧
    (s.dist[v] = 0 ∨ ∃ u walk, IsWalk g arcs u v walk ∧ costSum g walk = s.dist[v])
  improved : ∀ (v : Fin n) k, s.pred[v] = some k →
    k ∈ arcs ∧ g.head k = v ∧ s.dist[g.tail k] + g.cost k ≤ s.dist[v]
  negative : ∀ v back, back ≠ [] → Back g s.pred v v back → costSum g back < 0

/-- Going back, a distance falls by no less than the costs of the arcs. -/
theorem Back.costSum_le (dist : Fin n → Int) {pred : Table (Option ι) n}
    (hdist : ∀ (v : Fin n) k, pred[v] = some k → dist (g.tail k) + g.cost k ≤ dist v)
    {back : List ι} (h : Back g pred v w back) : dist w + costSum g back ≤ dist v := by
  induction back generalizing v with
  | nil =>
      obtain rfl : v = w := h
      simp
  | cons k back ih =>
      have h₁ := hdist v k h.1
      have h₂ := ih h.2
      rw [costSum_cons]
      omega

/-- If one of the arcs makes the difference strict, the whole way back does. -/
theorem Back.costSum_lt (dist : Fin n → Int) {pred : Table (Option ι) n}
    (hdist : ∀ (v : Fin n) k, pred[v] = some k → dist (g.tail k) + g.cost k ≤ dist v)
    {x : Fin n} {k : ι} (hx : pred[x] = some k) (hlt : dist (g.tail k) + g.cost k < dist x)
    {back : List ι} (hmem : k ∈ back) (hhead : ∀ (v : Fin n) k, pred[v] = some k → g.head k = v)
    (h : Back g pred v w back) : dist w + costSum g back < dist v := by
  induction back generalizing v with
  | nil => simp at hmem
  | cons k₁ back ih =>
      rw [costSum_cons]
      have h₁ := hdist v k₁ h.1
      by_cases heq : k = k₁
      · subst heq
        have hv : v = x := (hhead v k h.1).symm.trans (hhead x k hx)
        subst hv
        have h₂ := Back.costSum_le dist hdist h.2
        omega
      · have h₂ := ih ((List.mem_cons.mp hmem).resolve_left heq) h.2
        omega

/-- A way back that does not use the arc of a node that was changed was there before. -/
theorem Back.of_set {pred : Table (Option ι) n} {x : Fin n} {k : ι} {back : List ι}
    (hnotMem : k ∉ back) (h : Back g (pred.set x (some k)) v w back) : Back g pred v w back := by
  induction back generalizing v with
  | nil => exact h
  | cons k₁ back ih =>
      rw [List.mem_cons, not_or] at hnotMem
      refine ⟨?_, ih hnotMem.2 h.2⟩
      have hk := h.1
      rw [Table.getElem_set] at hk
      split at hk
      · cases hk
        exact absurd rfl hnotMem.1
      · exact hk

/-- The labels after an arc has improved the distance of its head. -/
def Labels.improve (g : CostedArcs n ι Int) (s : Labels n ι Int) (k : ι) : Labels n ι Int where
  dist := s.dist.set (g.head k) (s.dist[g.tail k] + g.cost k)
  pred := s.pred.set (g.head k) (some k)
  last := some (g.head k)

theorem dist_improve (s : Labels n ι Int) (k : ι) (v : Fin n) : (s.improve g k).dist[v] =
    if g.head k = v then s.dist[g.tail k] + g.cost k else s.dist[v] :=
  Table.getElem_set ..

theorem dist_improve_le {k : ι} (hlt : s.dist[g.tail k] + g.cost k < s.dist[g.head k])
    (v : Fin n) : (s.improve g k).dist[v] ≤ s.dist[v] := by
  rw [dist_improve]
  split
  · rename_i hv
    subst hv
    exact hlt.le
  · exact le_refl _

theorem pred_improve {k k' : ι} (h : (s.improve g k).pred[v] = some k') :
    (v = g.head k ∧ k' = k) ∨ (v ≠ g.head k ∧ s.pred[v] = some k') := by
  rw [Labels.improve, Table.getElem_set] at h
  split at h
  · rename_i hv
    cases h
    exact Or.inl ⟨hv.symm, rfl⟩
  · rename_i hv
    exact Or.inr ⟨Ne.symm hv, h⟩

theorem Labels.Valid.attained_improve (h : s.Valid g arcs) {k : ι} (hk : k ∈ arcs) (v : Fin n) :
    (s.improve g k).dist[v] = 0 ∨
      ∃ u walk, IsWalk g arcs u v walk ∧ costSum g walk = (s.improve g k).dist[v] := by
  rw [dist_improve]
  split
  · rename_i hv
    subst hv
    right
    rcases (h.attained (g.tail k)).2 with hzero | ⟨u, walk, hwalk, hcost⟩
    · exact ⟨g.tail k, [k], ⟨hk, rfl, rfl⟩, by simp [hzero]⟩
    · refine ⟨u, walk ++ [k], hwalk.append ⟨hk, rfl, rfl⟩, ?_⟩
      rw [costSum_append, hcost]
      simp
  · exact (h.attained v).2

/-- A closed way back that uses the arc of the improved node is negative because the old distances
made that arc strict. -/
theorem Labels.Valid.negative_improve (h : s.Valid g arcs) {k : ι}
    (hlt : s.dist[g.tail k] + g.cost k < s.dist[g.head k]) {back : List ι} (hne : back ≠ [])
    (hback : Back g (s.improve g k).pred v v back) : costSum g back < 0 := by
  have hdist : ∀ (v : Fin n) k', (s.improve g k).pred[v] = some k' →
      s.dist[g.tail k'] + g.cost k' ≤ s.dist[v] := by
    intro v k' hk'
    rcases pred_improve hk' with ⟨rfl, rfl⟩ | ⟨-, hk'⟩
    · exact hlt.le
    · exact (h.improved v k' hk').2.2
  have hhead : ∀ (v : Fin n) k', (s.improve g k).pred[v] = some k' → g.head k' = v := by
    intro v k' hk'
    rcases pred_improve hk' with ⟨rfl, rfl⟩ | ⟨-, hk'⟩
    · rfl
    · exact (h.improved v k' hk').2.1
  by_cases hmem : k ∈ back
  · have hstrict := Back.costSum_lt (fun v : Fin n => s.dist[v]) hdist
      (Table.getElem_set_self _ _ _) hlt hmem hhead hback
    omega
  · exact h.negative v back hne (Back.of_set hmem hback)

theorem Labels.Valid.improve (h : s.Valid g arcs) {k : ι} (hk : k ∈ arcs)
    (hlt : s.dist[g.tail k] + g.cost k < s.dist[g.head k]) : (s.improve g k).Valid g arcs := by
  refine ⟨fun v => ?_, fun v k' hk' => ?_, fun v back hne hback => ?_⟩
  · exact ⟨(dist_improve_le hlt v).trans (h.attained v).1, h.attained_improve hk v⟩
  · have htail := dist_improve_le hlt (g.tail k')
    rcases pred_improve hk' with ⟨rfl, rfl⟩ | ⟨hv, hk''⟩
    · refine ⟨hk, rfl, ?_⟩
      rw [dist_improve s k' (g.head k'), if_pos rfl]
      omega
    · obtain ⟨hmem, hhead, hle⟩ := h.improved v k' hk''
      refine ⟨hmem, hhead, ?_⟩
      rw [dist_improve s k v, if_neg (Ne.symm hv)]
      omega
  · exact h.negative_improve hlt hne hback

variable [inst : ExactCosts]

/-- Whether an arc is relaxed and what that does, for costs that are compared exactly. -/
theorem relax_eq (s : Labels n ι Int) (k : ι) : relax g 0 s k =
    if s.dist[g.tail k] + g.cost k < s.dist[g.head k] then s.improve g k else s := by
  unfold relax Labels.improve
  simp only [scalar_add_eq, scalar_sub_eq, scalar_lt_iff, sub_zero]

/-- Relaxing an arc keeps the labels valid. -/
theorem Labels.Valid.relax (h : s.Valid g arcs) {k : ι} (hk : k ∈ arcs) :
    (relax g 0 s k).Valid g arcs := by
  rw [relax_eq]
  split
  · rename_i hlt
    exact h.improve hk hlt
  · exact h

theorem valid_start (g : CostedArcs n ι Int) (arcs : List ι) :
    (start n ι Int).Valid g arcs where
  attained v := by simp [start, scalar_zero_eq]
  improved v k hk := by simp [start] at hk
  negative v back hne hback := by
    cases back with
    | nil => exact absurd rfl hne
    | cons k back =>
        have := hback.1
        simp [start] at this

end Labels

section Rounds

/-- The head of an arc is not farther than its tail and the arc. -/
def Slack (g : CostedArcs n ι Int) (s : Labels n ι Int) (k : ι) : Prop :=
  s.dist[g.head k] ≤ s.dist[g.tail k] + g.cost k

/-- Every node is stamped with the round in which it was improved last; the arcs `todo` are still
to be relaxed in the current round. -/
structure Stamped (g : CostedArcs n ι Int) (arcs : List ι) (round : Nat) (todo : List ι)
    (stamp : Fin n → Nat) (s : Labels n ι Int) : Prop where
  stamp_le : ∀ v, stamp v ≤ round
  stamp_pred : ∀ v, 0 < stamp v → ∃ k, s.pred[v] = some k ∧ stamp v ≤ stamp (g.tail k) + 1
  stamp_last : ∀ v, s.last = some v → stamp v = round
  quiet : s.last = none → ∀ v, stamp v < round
  fresh : ∀ k ∈ arcs, Slack g s k ∨ stamp (g.tail k) = round ∨
    (k ∈ todo ∧ round ≤ stamp (g.tail k) + 1)

variable {round : Nat} {stamp : Fin n → Nat} {k : ι} {todo : List ι}

/-- An arc stays slack if its tail is not improved, and the arc that improves its head becomes
slack. -/
theorem slack_improve (hlt : s.dist[g.tail k] + g.cost k < s.dist[g.head k]) {k' : ι}
    (htail : g.tail k' ≠ g.head k) (h : Slack g s k' ∨ k' = k) : Slack g (s.improve g k) k' := by
  unfold Slack at *
  rw [dist_improve s k (g.tail k'), if_neg (Ne.symm htail), dist_improve]
  split
  · rename_i hhead
    rcases h with hs | rfl
    · rw [← hhead] at hs
      omega
    · exact le_refl _
  · rename_i hhead
    rcases h with hs | rfl
    · exact hs
    · exact absurd rfl hhead

/-- Relaxing the next arc stamps its head. -/
theorem Stamped.improve (h : Stamped g arcs round (k :: todo) stamp s) (hk : k ∈ arcs)
    (hlt : s.dist[g.tail k] + g.cost k < s.dist[g.head k]) :
    ∃ stamp', Stamped g arcs round todo stamp' (s.improve g k) := by
  have htail : round ≤ stamp (g.tail k) + 1 := by
    rcases h.fresh k hk with hslack | hstamp | ⟨-, hstamp⟩
    · exact absurd hslack (not_le.mpr hlt)
    · omega
    · exact hstamp
  classical
  refine ⟨Function.update stamp (g.head k) round, ?_⟩
  have hself : Function.update stamp (g.head k) round (g.head k) = round :=
    Function.update_self ..
  have hother : ∀ v, v ≠ g.head k → Function.update stamp (g.head k) round v = stamp v :=
    fun v hv => Function.update_of_ne hv ..
  have hgrow : ∀ v, stamp v ≤ Function.update stamp (g.head k) round v := by
    intro v
    by_cases hv : v = g.head k
    · rw [hv, hself]
      exact h.stamp_le _
    · rw [hother v hv]
  refine ⟨fun v => ?_, fun v hv => ?_, fun v hv => ?_, by simp [Labels.improve], fun k' hk' => ?_⟩
  · by_cases hv : v = g.head k
    · rw [hv, hself]
    · rw [hother v hv]
      exact h.stamp_le v
  · by_cases heq : v = g.head k
    · refine ⟨k, by simp [Labels.improve, heq], ?_⟩
      have := hgrow (g.tail k)
      rw [heq, hself]
      omega
    · rw [hother v heq] at hv ⊢
      obtain ⟨k', hk', hle⟩ := h.stamp_pred v hv
      have := hgrow (g.tail k')
      exact ⟨k', (Table.getElem_set_of_ne _ _ (Ne.symm heq)).trans hk', by omega⟩
  · cases hv
    exact hself
  · by_cases htail' : g.tail k' = g.head k
    · right
      left
      rw [htail', hself]
    · rw [hother _ htail']
      rcases h.fresh k' hk' with hs | hstamp | ⟨hmem, hstamp⟩
      · exact Or.inl (slack_improve hlt htail' (Or.inl hs))
      · exact Or.inr (Or.inl hstamp)
      · rcases List.mem_cons.mp hmem with heq | hmem
        · exact Or.inl (slack_improve hlt htail' (Or.inr heq))
        · exact Or.inr (Or.inr ⟨hmem, hstamp⟩)

theorem Stamped.skip (h : Stamped g arcs round (k :: todo) stamp s) (hslack : Slack g s k) :
    Stamped g arcs round todo stamp s := by
  refine ⟨h.stamp_le, h.stamp_pred, h.stamp_last, h.quiet, fun k' hk' => ?_⟩
  rcases h.fresh k' hk' with hs | hstamp | ⟨hmem, hstamp⟩
  · exact Or.inl hs
  · exact Or.inr (Or.inl hstamp)
  · rcases List.mem_cons.mp hmem with rfl | hmem
    · exact Or.inl hslack
    · exact Or.inr (Or.inr ⟨hmem, hstamp⟩)

variable [inst : ExactCosts]

/-- Relaxing the next arc stamps its head or leaves it slack. -/
theorem Stamped.relax (h : Stamped g arcs round (k :: todo) stamp s) (hk : k ∈ arcs) :
    ∃ stamp', Stamped g arcs round todo stamp' (relax g 0 s k) := by
  rw [relax_eq]
  split
  · rename_i hlt
    exact h.improve hk hlt
  · rename_i hslack
    exact ⟨stamp, h.skip (not_lt.mp hslack)⟩

/-- Relaxing all the arcs that are still to be relaxed. -/
theorem Stamped.foldl (h : Stamped g arcs round todo stamp s)
    (htodo : ∀ k ∈ todo, k ∈ arcs) (hvalid : s.Valid g arcs) :
    (∃ stamp', Stamped g arcs round [] stamp' (todo.foldl (BellmanFord.relax g 0) s)) ∧
      (todo.foldl (BellmanFord.relax g 0) s).Valid g arcs := by
  induction todo generalizing s stamp with
  | nil => exact ⟨⟨stamp, h⟩, hvalid⟩
  | cons k todo ih =>
      obtain ⟨stamp', h'⟩ := h.relax (htodo k (by simp))
      exact ih h' (fun k' hk' => htodo k' (by simp [hk'])) (hvalid.relax (htodo k (by simp)))

/-- The labels after a round: arcs that are not slack leave nodes improved in it. -/
def AfterRound (g : CostedArcs n ι Int) (arcs : List ι) (round : Nat)
    (s : Labels n ι Int) : Prop :=
  s.Valid g arcs ∧ ∃ stamp : Fin n → Nat, (∀ v, stamp v ≤ round) ∧
    (∀ v, 0 < stamp v → ∃ k, s.pred[v] = some k ∧ stamp v ≤ stamp (g.tail k) + 1) ∧
    (∀ v, s.last = some v → stamp v = round) ∧
    ∀ k ∈ arcs, Slack g s k ∨ stamp (g.tail k) = round

theorem afterRound_start (g : CostedArcs n ι Int) (arcs : List ι) :
    AfterRound g arcs 0 (start n ι Int) :=
  ⟨valid_start g arcs, fun _ => 0, by simp, by simp, by simp, by simp⟩

/-- A round that relaxes nothing leaves all arcs slack. -/
theorem afterRound_round (h : AfterRound g arcs round s) :
    AfterRound g arcs (round + 1) (BellmanFord.round g 0 arcs s) ∧
      ((BellmanFord.round g 0 arcs s).last = none →
        ∀ k ∈ arcs, Slack g (BellmanFord.round g 0 arcs s) k) := by
  obtain ⟨hvalid, stamp, hle, hpred, hlast, hfresh⟩ := h
  have hstamped : Stamped g arcs (round + 1) arcs stamp { s with last := none } := by
    refine ⟨fun v => ?_, hpred, by simp, fun _ v => ?_, fun k hk => ?_⟩
    · have := hle v
      omega
    · have := hle v
      omega
    · rcases hfresh k hk with hs | hstamp
      · exact Or.inl hs
      · exact Or.inr (Or.inr ⟨hk, by omega⟩)
  obtain ⟨⟨stamp', h'⟩, hvalid'⟩ := hstamped.foldl (fun k hk => hk)
    ⟨hvalid.attained, hvalid.improved, hvalid.negative⟩
  have hfresh' : ∀ k ∈ arcs, Slack g (BellmanFord.round g 0 arcs s) k ∨
      stamp' (g.tail k) = round + 1 := by
    intro k hk
    rcases h'.fresh k hk with hs | hstamp | ⟨hmem, -⟩
    · exact Or.inl hs
    · exact Or.inr hstamp
    · cases hmem
  refine ⟨⟨hvalid', stamp', h'.stamp_le, h'.stamp_pred, h'.stamp_last, hfresh'⟩, ?_⟩
  intro hnone k hk
  apply (hfresh' k hk).resolve_right
  intro hstamp
  have := h'.quiet hnone (g.tail k)
  omega

/-- The rounds end with slack arcs, or with a node improved in the last of them. -/
theorem afterRound_rounds (count : Nat) (h : AfterRound g arcs round s)
    (hnext : s.last = none → count = 0 → ∀ k ∈ arcs, Slack g s k) :
    (BellmanFord.rounds g 0 arcs count s).Valid g arcs ∧
      ((BellmanFord.rounds g 0 arcs count s).last = none →
        ∀ k ∈ arcs, Slack g (BellmanFord.rounds g 0 arcs count s) k) ∧
      ((BellmanFord.rounds g 0 arcs count s).last ≠ none →
        AfterRound g arcs (round + count) (BellmanFord.rounds g 0 arcs count s)) := by
  induction count generalizing round s with
  | zero => exact ⟨h.1, fun hnone => hnext hnone rfl, fun _ => h⟩
  | succ count ih =>
      obtain ⟨h', hslack⟩ := afterRound_round h
      simp only [BellmanFord.rounds]
      split
      · rename_i hnone
        rw [Option.isNone_iff_eq_none] at hnone
        exact ⟨h'.1, hslack, fun hsome => absurd hnone hsome⟩
      · rw [show round + (count + 1) = round + 1 + count by omega]
        exact ih h' fun hnone _ => hslack hnone

omit inst in
/-- A node with a stamp can go back as often as the stamp says. -/
theorem exists_walkBack {pred : Table (Option ι) n}
    (hpred : ∀ v, 0 < stamp v → ∃ k, pred[v] = some k ∧ stamp v ≤ stamp (g.tail k) + 1)
    {count : Nat} (hv : count ≤ stamp v) : ∃ w, walkBack g pred count v = some w := by
  induction count generalizing v with
  | zero => exact ⟨v, rfl⟩
  | succ count ih =>
      obtain ⟨k, hk, hle⟩ := hpred v (by omega)
      obtain ⟨w, hw⟩ := ih (v := g.tail k) (by omega)
      exact ⟨w, by simp only [walkBack, hk]; exact hw⟩

omit inst in
/-- Behind a node improved in the last round there is a cycle of negative cost. -/
theorem exists_cycleBehind (h : AfterRound g arcs n s) (hlast : s.last = some v) :
    ∃ cycle, cycleBehind g s.pred v = some cycle ∧ NegativeCycle g arcs cycle := by
  obtain ⟨hvalid, stamp, -, hpred, hstamp, -⟩ := h
  obtain ⟨stop, hstop⟩ := exists_walkBack hpred (hstamp v hlast).ge
  obtain ⟨d, hpos, hd, hreturn⟩ := exists_return hstop
  obtain ⟨back, htrace, hne, hback, hfirst⟩ :=
    traceBack_spec hpos (show d ≤ n + 1 by omega) hreturn
  have hhead : ∀ (v : Fin n) k, s.pred[v] = some k → g.head k = v :=
    fun v k hk => (hvalid.improved v k hk).2.1
  have hperm : ∀ f : ι → Int, (back.reverse.map f).sum = (back.map f).sum :=
    fun f => (back.reverse_perm.map f).sum_eq
  refine ⟨back.reverse, by simp [cycleBehind, hstop, htrace], by simpa using hne, ?_, ?_, ?_⟩
  · refine ⟨stop, hback.isWalk fun v k hk => ?_⟩
    exact ⟨(hvalid.improved v k hk).1, hhead v k hk⟩
  · rw [List.map_reverse, List.nodup_reverse]
    exact hback.nodup hfirst hhead
  · rw [costSum, hperm]
    exact hvalid.negative stop back hne hback

end Rounds

section Run

variable [inst : ExactCosts]

/-- How the last round ends. -/
theorem rounds_start (g : CostedArcs n ι Int) (arcs : List ι) :
    (rounds g 0 arcs n (start n ι Int)).Valid g arcs ∧
      ((rounds g 0 arcs n (start n ι Int)).last = none →
        ∀ k ∈ arcs, Slack g (rounds g 0 arcs n (start n ι Int)) k) ∧
      ((rounds g 0 arcs n (start n ι Int)).last ≠ none →
        AfterRound g arcs n (rounds g 0 arcs n (start n ι Int))) := by
  have h := afterRound_rounds n (afterRound_start g arcs) fun _ hzero k _ => by
    have := (g.head k).isLt
    omega
  rwa [Nat.zero_add] at h

/-- If a cycle is returned, its cost is negative and it passes no node twice. -/
theorem run_negativeCycle {cycle : List ι} (h : run g 0 arcs = .negativeCycle cycle) :
    NegativeCycle g arcs cycle := by
  obtain ⟨-, -, hafter⟩ := rounds_start g arcs
  unfold run at h
  generalize rounds g 0 arcs n (start n ι Int) = s at h hafter
  cases hlast : s.last with
  | none => simp [hlast] at h
  | some v =>
      obtain ⟨cycle', hcycle, hnegative⟩ :=
        exists_cycleBehind (hafter (by simp [hlast])) hlast
      simp only [hlast, Option.bind_some, hcycle, Relaxation.negativeCycle.injEq] at h
      rwa [← h]

/-- If distances are returned, no arc undercuts them, and each is zero or the cost of a walk. -/
theorem run_converged {dist : Table Int n} (h : run g 0 arcs = .converged dist) :
    (∀ k ∈ arcs, dist[g.head k] ≤ dist[g.tail k] + g.cost k) ∧
      ∀ v : Fin n, dist[v] ≤ 0 ∧
        (dist[v] = 0 ∨ ∃ u walk, IsWalk g arcs u v walk ∧ costSum g walk = dist[v]) := by
  obtain ⟨hvalid, hslack, hafter⟩ := rounds_start g arcs
  unfold run at h
  generalize rounds g 0 arcs n (start n ι Int) = s at h hvalid hslack hafter
  cases hlast : s.last with
  | none =>
      simp only [hlast, Option.bind_none, Relaxation.converged.injEq] at h
      subst h
      exact ⟨hslack hlast, hvalid.attained⟩
  | some v =>
      obtain ⟨cycle, hcycle, -⟩ := exists_cycleBehind (hafter (by simp [hlast])) hlast
      simp [hlast, hcycle] at h

end Run

end NetworkFlow.BellmanFord
