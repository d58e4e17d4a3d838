import Mathlib.Data.Fintype.EquivFin
import NetworkFlow.Proofs.NetworkSimplex.Run

/-!
# Bland's rule and the arcs it strands

Bland's rule takes the smallest violating arc and, among the arcs of the cycle
that allow nothing, the smallest one. The classical argument that it never comes
back to a tree looks at the largest arc `x` whose state changes between two visits.
Somewhere `x` leaves, and later, in the same state, it enters. The reduced costs at
the second of these pivots add up around the cycle of the first one to something
negative, while `x` itself counts as positive. Hence another arc of the cycle is
negative there. It is smaller than `x`; and as it did not leave in place of `x`, it
had room, so it would have entered in place of `x`.

The argument needs that an arc that leaves because it cannot carry more is left in
the state `upper`, in which it can only be lowered again. An arc of capacity zero
is left in the state `lower` instead. A pivot that does this strands the arc
(`Strands`), and only runs of pivots that strand arcs again and again can go on for
ever.

## Main results

* `no_return`: without stranding, degenerate pivots under Bland's rule never come
  back to the same states.
-/

namespace NetworkFlow.NetworkSimplex

open scoped ExactCosts

variable {n m : Nat}

/-- A tree arc of capacity zero leaves because it would have to carry more; it is left as one
that carries nothing. -/
def Strands (t : Tableau n m Int) (b : Basis n m Int) (a : Fin (m + n)) : Prop :=
  ∃ r, Leaves t b a r ∧ r.arc ≠ a ∧ r.backward = false ∧ t.cap[r.arc] = 0

/-- A degenerate pivot under Bland's rule. -/
structure BlandPivot [ExactCosts] (t : Tableau n m Int) (supply : Table Int n)
    (b : Basis n m Int) (a : Fin (m + n)) (b' : Basis n m Int) : Prop where
  consistent : Consistent t supply b
  bland : b.bland
  violates : Violates t b a
  smallest : ∀ x, Violates t b x → a ≤ x
  amount_eq : (leaving t b a).amount = 0
  flow_eq : b'.flow = b.flow
  state_self : (leaving t b a).arc = a → b'.state = b.state.set a b.state[a].opposite
  state_eq : (leaving t b a).arc ≠ a →
    b'.state = (b.state.set a .tree).set (leaving t b a).arc (restingState b' (leaving t b a).arc)

namespace BlandPivot

variable [ExactCosts] {t : Tableau n m Int} {supply : Table Int n} {b b' : Basis n m Int}
  {a x : Fin (m + n)}

theorem state_of_ne (h : BlandPivot t supply b a b') (hxa : x ≠ a)
    (hxl : x ≠ (leaving t b a).arc) : b'.state[x] = b.state[x] := by
  by_cases hself : (leaving t b a).arc = a
  · rw [h.state_self hself, Table.getElem_set_of_ne _ _ (Ne.symm hxa)]
  · rw [h.state_eq hself, Table.getElem_set_of_ne _ _ (Ne.symm hxl),
      Table.getElem_set_of_ne _ _ (Ne.symm hxa)]

/-- The entering arc does not stay as it is. -/
theorem state_entering_ne (h : BlandPivot t supply b a b') : b'.state[a] ≠ b.state[a] := by
  have ha := h.violates.1
  by_cases hself : (leaving t b a).arc = a
  · rw [h.state_self hself, Table.getElem_set_self]
    cases hs : b.state[a] <;> simp_all [ArcState.opposite]
  · rw [h.state_eq hself, Table.getElem_set_of_ne _ _ hself, Table.getElem_set_self]
    exact Ne.symm ha

/-- The leaving arc does not stay in the tree. -/
theorem state_leaving_ne_tree (h : BlandPivot t supply b a b') :
    b'.state[(leaving t b a).arc] ≠ .tree := by
  have ha := h.violates.1
  by_cases hself : (leaving t b a).arc = a
  · rw [h.state_self hself, hself, Table.getElem_set_self]
    cases hs : b.state[a] <;> simp_all [ArcState.opposite]
  · rw [h.state_eq hself, Table.getElem_set_self, restingState]
    split <;> simp

theorem state_leaving_eq_tree (h : BlandPivot t supply b a b') (hne : (leaving t b a).arc ≠ a) :
    b.state[(leaving t b a).arc] = .tree := by
  obtain ⟨⟨r, hr, harc, -⟩, -⟩ := h.consistent.leaving_spec h.violates.1
  rw [← harc] at hne ⊢
  exact state_of_mem_cyclePath h.consistent.toSpanning hr.mem_cyclePath hne

/-- A leaving arc that is not stranded can afterwards only change its flow against the
direction of the cycle. -/
theorem exists_blocked (h : BlandPivot t supply b a b') (hs : ¬ Strands t b a) :
    ∃ r ∈ cyclePath t b a, r.arc = (leaving t b a).arc ∧
      entryArc b' (leaving t b a).arc = r.reverse := by
  obtain ⟨⟨r, hr, harc, hroom⟩, -⟩ := h.consistent.leaving_spec h.violates.1
  refine ⟨r, hr.mem_cyclePath, harc, ?_⟩
  by_cases hself : (leaving t b a).arc = a
  · have hentry := eq_entryArc_of_mem h.consistent.toSpanning h.violates.1 hr.mem_cyclePath
      (harc.trans hself)
    have ha := h.violates.1
    rw [hself, hentry, entryArc, h.state_self hself, Table.getElem_set_self]
    cases hstate : b.state[a] <;>
      simp_all [ArcState.opposite, entryArc, ResidualArc.reverse]
  · rw [h.amount_eq] at hroom
    rw [← harc] at hself ⊢
    rw [entryArc, h.state_eq (harc ▸ hself), ← harc, Table.getElem_set_self, restingState,
      h.flow_eq]
    obtain ⟨x, backward⟩ := r
    cases backward
    · -- without a stranded arc, an arc that is full carries something
      have hcap : t.cap[x] ≠ 0 := fun hcap => hs ⟨⟨x, false⟩, hr, hself, rfl, hcap⟩
      rw [t.room_forward] at hroom
      have hflow : b.flow[x] ≠ 0 := by omega
      simp [hflow, ResidualArc.reverse]
    · rw [t.room_backward] at hroom
      simp [hroom, ResidualArc.reverse]

/-- The reduced costs around the cycle add up to something negative, whatever the potentials. -/
theorem exists_negative (h : BlandPivot t supply b a b') (potential : Table Int (n + 1)) :
    ∃ s ∈ cyclePath t b a, t.reduced t.cost potential s < 0 := by
  by_contra hnone
  push Not at hnone
  have hsum := (leads_cyclePath (t := t) h.consistent.toHung h.consistent.depths a).sum_reduced
    t.cost potential
  have hprice := priceOf_cyclePath h.consistent.toSpanning a
  have hneg := h.violates.2
  have hnonneg : 0 ≤ ((cyclePath t b a).map (t.reduced t.cost potential)).sum :=
    List.sum_nonneg (by simpa using hnone)
  omega

/-- A smaller arc of the cycle than the one that leaves has room, or it would have left. -/
theorem room_pos (h : BlandPivot t supply b a b') {s : ResidualArc (m + n)}
    (hs : s ∈ cyclePath t b a) (hlt : s.arc < (leaving t b a).arc) : 0 < t.room b.flow s := by
  have hnonneg := h.consistent.within.room_nonneg s
  have hzero : t.room b.flow s ≠ 0 := by
    intro hzero
    have hle := ((h.consistent.leaving_spec h.violates.1).2 s hs).2 h.bland
      (by rw [hzero, h.amount_eq])
    exact absurd hlt (not_lt.mpr hle)
  omega

end BlandPivot

/-- An arc outside the tree has room in one direction only. -/
theorem Consistent.entryArc_eq [ExactCosts] {t : Tableau n m Int} {supply : Table Int n}
    {b : Basis n m Int} (h : Consistent t supply b) {s : ResidualArc (m + n)}
    (hs : b.state[s.arc] ≠ .tree) (hroom : 0 < t.room b.flow s) : entryArc b s.arc = s := by
  rcases ResidualArc.eq_or_eq_reverse (r := s) (s := entryArc b s.arc) rfl with heq | heq
  · exact heq
  · have hzero := h.room_reverse_entryArc hs
    rw [heq, ResidualArc.reverse_reverse] at hzero
    omega

section Return

variable {β : Type}

/-- What is left on the way around is come back to. -/
theorem exists_arrival {v : Nat → β} {k count : Nat} (hv : v 0 = v count) (hk : k < count)
    (hne : v (k + 1) ≠ v k) : ∃ i < count, v i ≠ v k ∧ v (i + 1) = v k := by
  by_contra hnone
  push Not at hnone
  -- without an arrival, whoever is there has always been there
  have hback : ∀ j ≤ count, v j = v k → ∀ i ≤ j, v i = v k := by
    intro j
    induction j with
    | zero =>
        intro _ hj i hi
        obtain rfl : i = 0 := by omega
        exact hj
    | succ j ih =>
        intro hle hj i hi
        have hprev : v j = v k := by
          by_contra hprev
          exact hnone j (by omega) hprev hj
        rcases Nat.lt_or_ge i (j + 1) with hlt | hge
        · exact ih (by omega) hprev i (by omega)
        · obtain rfl : i = j + 1 := by omega
          exact hj
  have hzero := hback k hk.le rfl 0 (by omega)
  exact hne (hback count le_rfl (hv ▸ hzero) (k + 1) (by omega))

/-- What is come to on the way around is left. -/
theorem exists_departure {v : Nat → β} {k count : Nat} (hv : v 0 = v count) (hk : k < count)
    (hne : v (k + 1) ≠ v k) : ∃ j < count, v j = v (k + 1) ∧ v (j + 1) ≠ v (k + 1) := by
  by_contra hnone
  push Not at hnone
  have hstay : ∀ d j, j + d ≤ count → v j = v (k + 1) → v (j + d) = v (k + 1) := by
    intro d
    induction d with
    | zero => exact fun j _ hj => hj
    | succ d ih =>
        intro j hle hj
        exact hnone (j + d) (by omega) (ih j (by omega) hj)
  have hend : v count = v (k + 1) := by
    have := hstay (count - (k + 1)) (k + 1) (by omega) rfl
    rwa [show k + 1 + (count - (k + 1)) = count by omega] at this
  have hk' := hstay k 0 (by omega) (hv.trans hend)
  rw [Nat.zero_add] at hk'
  exact hne hk'.symm

end Return

variable [ExactCosts] {t : Tableau n m Int} {supply : Table Int n} {b : Nat → Basis n m Int}
  {a : Nat → Fin (m + n)} {count : Nat}

/-- The state of an arc changes in one of the pivots. -/
def Changes (b : Nat → Basis n m Int) (count : Nat) (x : Fin (m + n)) : Prop :=
  ∃ k < count, (b (k + 1)).state[x] ≠ (b k).state[x]

omit [ExactCosts] in
theorem state_eq_of_not_changes {x : Fin (m + n)} (h : ¬ Changes b count x) :
    ∀ k ≤ count, (b k).state[x] = (b 0).state[x] := by
  intro k
  induction k with
  | zero => exact fun _ => rfl
  | succ k ih =>
      intro hk
      by_contra hne
      exact h ⟨k, by omega, fun heq => hne (heq.trans (ih (by omega)))⟩

/-- An arc whose state changes, and is at the end as it was at the beginning, leaves in one
pivot and enters in one that finds it in the same state. -/
theorem exists_leaving_entering
    (h : ∀ k < count, BlandPivot t supply (b k) (a k) (b (k + 1)))
    {x : Fin (m + n)} (heq : (b 0).state[x] = (b count).state[x]) (hx : Changes b count x) :
    ∃ i j, i < count ∧ j < count ∧ x = (leaving t (b i) (a i)).arc ∧ x = a j ∧
      (b (i + 1)).state[x] = (b j).state[x] := by
  obtain ⟨k, hk, hne⟩ := hx
  by_cases hka : x = a k
  · obtain ⟨i, hi, hne', harr⟩ := exists_arrival (v := fun k => (b k).state[x]) heq hk hne
    refine ⟨i, k, hi, hk, ?_, hka, harr⟩
    by_contra hleave
    by_cases hia : x = a i
    · -- it would have entered the tree, but it is outside the tree when it enters
      have hout := (h k hk).violates.1
      have hself : (leaving t (b i) (a i)).arc ≠ a i := fun hl => hleave (hia.trans hl.symm)
      rw [← hka, ← harr, (h i hi).state_eq hself,
        Table.getElem_set_of_ne _ _ (Ne.symm hleave), hia, Table.getElem_set_self] at hout
      exact hout rfl
    · exact hne' (harr ▸ ((h i hi).state_of_ne hia hleave).symm)
  · have hleave : x = (leaving t (b k) (a k)).arc := by
      by_contra hleave
      exact hne ((h k hk).state_of_ne hka hleave)
    obtain ⟨j, hj, hdep, hne'⟩ := exists_departure (v := fun k => (b k).state[x]) heq hk hne
    refine ⟨k, j, hk, hj, hleave, ?_, hdep.symm⟩
    by_contra hja
    by_cases hjl : x = (leaving t (b j) (a j)).arc
    · have hout := (h k hk).state_leaving_ne_tree
      rw [← hleave, ← hdep, hjl] at hout
      exact hout ((h j hj).state_leaving_eq_tree (hjl ▸ hja))
    · exact hne' (((h j hj).state_of_ne hja hjl).trans hdep)

theorem flow_eq_of_pivots (h : ∀ k < count, BlandPivot t supply (b k) (a k) (b (k + 1))) :
    ∀ k ≤ count, (b k).flow = (b 0).flow := by
  intro k
  induction k with
  | zero => exact fun _ => rfl
  | succ k ih => exact fun hk => (h k (by omega)).flow_eq.trans (ih (by omega))

theorem exists_largest_change (hpos : 0 < count)
    (h : ∀ k < count, BlandPivot t supply (b k) (a k) (b (k + 1))) :
    ∃ x, Changes b count x ∧ ∀ y, Changes b count y → y ≤ x := by
  classical
  obtain ⟨x, hx, hmax⟩ := Finset.exists_max_image
    (Finset.univ.filter fun x : Fin (m + n) => Changes b count x) id
    ⟨a 0, by simpa using ⟨0, hpos, (h 0 hpos).state_entering_ne⟩⟩
  exact ⟨x, by simpa using hx, fun y hy => hmax y (by simpa using hy)⟩

/-- An arc that is on a cycle at one time and outside the tree at another one changes. -/
theorem changes_of_mem_cyclePath (h : ∀ k < count, BlandPivot t supply (b k) (a k) (b (k + 1)))
    {i j : Nat} (hi : i < count) (hj : j ≤ count) {s : ResidualArc (m + n)}
    (hs : s ∈ cyclePath t (b i) (a i)) (hout : (b j).state[s.arc] ≠ .tree) :
    Changes b count s.arc := by
  by_cases hsa : s.arc = a i
  · exact ⟨i, hi, hsa ▸ (h i hi).state_entering_ne⟩
  · by_contra hstay
    have h₁ := state_eq_of_not_changes hstay i hi.le
    have h₂ := state_eq_of_not_changes hstay j hj
    rw [state_of_mem_cyclePath (h i hi).consistent.toSpanning hs hsa] at h₁
    exact hout (h₂.trans h₁.symm)

/-- Degenerate pivots under Bland's rule that strand no arc do not come back to the same
states. -/
theorem no_return (hpos : 0 < count)
    (h : ∀ k < count, BlandPivot t supply (b k) (a k) (b (k + 1)))
    (hs : ∀ k < count, ¬ Strands t (b k) (a k)) : (b 0).state ≠ (b count).state := by
  intro heq
  obtain ⟨x, hx, hmax⟩ := exists_largest_change hpos h
  obtain ⟨i, j, hi, hj, hleave, henter, hsame⟩ := exists_leaving_entering h (by rw [heq]) hx
  have hci := (h i hi).consistent
  have hcj := (h j hj).consistent
  -- at `j`, the largest arc counts as positive on the cycle of `i`
  obtain ⟨r, hr, harc, hblocked⟩ := (h i hi).exists_blocked (hs i hi)
  have hrpos : 0 < t.reduced t.cost (b j).potential r := by
    have hneg := (h j hj).violates.2
    have hentry : entryArc (b j) (a j) = r.reverse := by
      rw [← hblocked, ← hleave, ← henter, entryArc, entryArc, hsame]
    rw [hentry, t.reduced_reverse] at hneg
    omega
  -- so another one is negative there; it is outside the tree at `j` and smaller
  obtain ⟨s, hscycle, hsneg⟩ := (h i hi).exists_negative (b j).potential
  have hout : (b j).state[s.arc] ≠ .tree := by
    intro htree
    have := reduced_of_tree hcj.toSpanning htree
    omega
  have hne : s.arc ≠ x := by
    intro hsx
    have hsr : s = r := List.inj_on_of_nodup_map
      (nodup_cyclePath hci.toSpanning (h i hi).violates.1) hscycle hr
      (hsx.trans (hleave.trans harc.symm))
    rw [hsr] at hsneg
    omega
  have hlt : s.arc < x :=
    lt_of_le_of_ne (hmax _ (changes_of_mem_cyclePath h hi hj.le hscycle hout)) hne
  -- it has room, and would have entered in place of the largest one
  have hroom : 0 < t.room (b j).flow s := by
    rw [flow_eq_of_pivots h j hj.le, ← flow_eq_of_pivots h i hi.le]
    exact (h i hi).room_pos hscycle (hleave ▸ hlt)
  have hle := (h j hj).smallest s.arc ⟨hout, by rwa [hcj.entryArc_eq hout hroom]⟩
  rw [← henter] at hle
  exact absurd hlt (not_lt.mpr hle)

end NetworkFlow.NetworkSimplex
