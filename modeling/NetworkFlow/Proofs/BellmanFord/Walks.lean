import Mathlib.Data.Fintype.Pigeonhole
import Mathlib.Logic.Relation
import NetworkFlow.BellmanFord
import NetworkFlow.Proofs.Exact

/-!
# Walks and ways back

Each node that Bellman-Ford has improved remembers the arc that improved it last.
Going back along these arcs (`Back`), one comes onto a cycle if one can go back as
many times as there are nodes, and what is then traced back from a node of the
cycle is the cycle, once around.

## Main results

* `IsWalk.nodup_or_exists_cycle`: a walk that repeats an arc holds a cycle that does not.
* `Back.nodup`: a way back to the first return passes no node twice.
* `traceBack_spec`: the way back is found if it is not too long.
* `exists_return`: whoever can go back `n` times comes onto a cycle.
* `run_closed`: what is returned as a cycle is one, in any arithmetic.
-/

namespace NetworkFlow.BellmanFord

open scoped ExactCosts

variable {n : Nat} {ι α : Type}

/-- The arcs of a list lead, one after the other, from one node to another one. -/
def IsWalk (g : CostedArcs n ι α) (arcs : List ι) (u v : Fin n) : List ι → Prop
  | [] => u = v
  | k :: walk => k ∈ arcs ∧ g.tail k = u ∧ IsWalk g arcs (g.head k) v walk

/-- The arcs by which the nodes were improved lead back from one node to another one. -/
def Back (g : CostedArcs n ι α) (pred : Table (Option ι) n) (v w : Fin n) : List ι → Prop
  | [] => v = w
  | k :: back => pred[v] = some k ∧ Back g pred (g.tail k) w back

/-- What the arcs of a list cost. -/
def costSum (g : CostedArcs n ι Int) (walk : List ι) : Int := (walk.map g.cost).sum

@[simp] theorem costSum_nil (g : CostedArcs n ι Int) : costSum g [] = 0 := rfl

@[simp] theorem costSum_cons (g : CostedArcs n ι Int) (k : ι) (walk : List ι) :
    costSum g (k :: walk) = g.cost k + costSum g walk := by
  simp [costSum]

theorem costSum_append (g : CostedArcs n ι Int) (walk rest : List ι) :
    costSum g (walk ++ rest) = costSum g walk + costSum g rest := by
  simp [costSum]

/-- A cycle of negative cost through distinct nodes. -/
structure NegativeCycle (g : CostedArcs n ι Int) (arcs cycle : List ι) : Prop where
  ne_nil : cycle ≠ []
  closed : ∃ u, IsWalk g arcs u u cycle
  nodup : (cycle.map g.head).Nodup
  negative : costSum g cycle < 0

variable {g : CostedArcs n ι α} {arcs : List ι} {u v w : Fin n}

section Walks

theorem IsWalk.append {walk rest : List ι} (h : IsWalk g arcs u v walk)
    (h' : IsWalk g arcs v w rest) : IsWalk g arcs u w (walk ++ rest) := by
  induction walk generalizing u with
  | nil =>
      obtain rfl : u = v := h
      exact h'
  | cons k walk ih => exact ⟨h.1, h.2.1, ih h.2.2⟩

theorem IsWalk.mem {walk : List ι} (h : IsWalk g arcs u v walk) : ∀ k ∈ walk, k ∈ arcs := by
  induction walk generalizing u with
  | nil => simp
  | cons k walk ih =>
      intro k' hk'
      rcases List.mem_cons.mp hk' with rfl | hk'
      · exact h.1
      · exact ih h.2.2 k' hk'

/-- A walk that is put together of two. -/
theorem isWalk_append_iff {walk rest : List ι} :
    IsWalk g arcs u w (walk ++ rest) ↔ ∃ v, IsWalk g arcs u v walk ∧ IsWalk g arcs v w rest := by
  induction walk generalizing u with
  | nil => simp [IsWalk]
  | cons k walk ih => simp only [List.cons_append, IsWalk, ih, ← exists_and_left, and_assoc]

/-- A walk repeats no arc, or some part of it is a cycle without repetition. -/
theorem IsWalk.nodup_or_exists_cycle {walk : List ι} (h : IsWalk g arcs u v walk) :
    walk.Nodup ∨ ∃ w cycle, cycle ≠ [] ∧ cycle.Nodup ∧ IsWalk g arcs w w cycle := by
  induction walk generalizing u with
  | nil => exact Or.inl List.nodup_nil
  | cons k walk ih =>
      obtain ⟨hk, -, hwalk⟩ := h
      rcases ih hwalk with hnodup | hcycle
      · by_cases hmem : k ∈ walk
        · -- from one use of the arc to the next one the walk is a cycle
          obtain ⟨part, rest, rfl⟩ := List.append_of_mem hmem
          obtain ⟨w, hpart, -, rfl, -⟩ := isWalk_append_iff.mp hwalk
          have hparts := List.nodup_append.mp hnodup
          refine Or.inr ⟨g.tail k, k :: part, by simp, ?_, hk, rfl, hpart⟩
          exact List.nodup_cons.mpr ⟨fun hin => hparts.2.2 k hin k (by simp) rfl, hparts.1⟩
        · exact Or.inl (List.nodup_cons.mpr ⟨hmem, hnodup⟩)
      · exact Or.inr hcycle

/-- Whatever the arcs of a list reach step by step they reach by a walk. -/
theorem exists_isWalk
    (h : Relation.ReflTransGen (fun x y => ∃ k ∈ arcs, g.tail k = x ∧ g.head k = y) u v) :
    ∃ walk, IsWalk g arcs u v walk := by
  induction h using Relation.ReflTransGen.head_induction_on with
  | refl => exact ⟨[], rfl⟩
  | head hstep _ ih =>
      obtain ⟨k, hk, htail, rfl⟩ := hstep
      obtain ⟨walk, hwalk⟩ := ih
      exact ⟨k :: walk, hk, htail, hwalk⟩

/-- Along a walk the cost is at least the difference of distances that no arc undercuts. -/
theorem IsWalk.le_costSum {g : CostedArcs n ι Int} {dist : Fin n → Int}
    (hdist : ∀ k ∈ arcs, dist (g.head k) ≤ dist (g.tail k) + g.cost k) {walk : List ι}
    (h : IsWalk g arcs u v walk) : dist v ≤ dist u + costSum g walk := by
  induction walk generalizing u with
  | nil =>
      obtain rfl : u = v := h
      simp
  | cons k walk ih =>
      obtain ⟨hk, rfl, hwalk⟩ := h
      have h₁ := hdist k hk
      have h₂ := ih hwalk
      rw [costSum_cons]
      omega

variable {pred : Table (Option ι) n}

/-- There is one way back. -/
theorem Back.prefix {back back' : List ι} {w' : Fin n} (h : Back g pred v w back)
    (h' : Back g pred v w' back') (hle : back'.length ≤ back.length) : back' <+: back := by
  induction back' generalizing v back with
  | nil => exact List.nil_prefix
  | cons k back' ih =>
      cases back with
      | nil => simp at hle
      | cons k₁ back =>
          obtain ⟨hk, hback⟩ := h
          obtain ⟨hk', hback'⟩ := h'
          rw [hk] at hk'
          cases hk'
          exact (List.prefix_cons_inj k).mpr (ih hback hback' (by simpa using hle))

/-- The rest of a way back from one of its arcs on. -/
theorem Back.of_mem {back : List ι} (h : Back g pred v w back)
    (hhead : ∀ (v : Fin n) k, pred[v] = some k → g.head k = v) {k : ι} (hk : k ∈ back) :
    ∃ rest, (k :: rest) <:+ back ∧ Back g pred (g.head k) w (k :: rest) := by
  induction back generalizing v with
  | nil => simp at hk
  | cons k₁ back ih =>
      by_cases heq : k = k₁
      · subst heq
        have hv := hhead v k h.1
        exact ⟨back, List.suffix_rfl, by rw [hv]; exact h⟩
      · obtain ⟨rest, hsuffix, hback⟩ := ih h.2 ((List.mem_cons.mp hk).resolve_left heq)
        exact ⟨rest, hsuffix.trans (List.suffix_cons k₁ back), hback⟩

/-- A way back that ends at the first return to its end. -/
def First (g : CostedArcs n ι α) (pred : Table (Option ι) n) (v w : Fin n)
    (back : List ι) : Prop :=
  ∀ part, part ≠ [] → part <+: back → part ≠ back → ¬ Back g pred v w part

/-- A way back to the first return passes no node twice. -/
theorem Back.nodup {back : List ι} (h : Back g pred v w back) (hfirst : First g pred v w back)
    (hhead : ∀ (v : Fin n) k, pred[v] = some k → g.head k = v) : (back.map g.head).Nodup := by
  induction back generalizing v with
  | nil => exact List.nodup_nil
  | cons k back ih =>
      rw [List.map_cons, List.nodup_cons]
      refine ⟨fun hmem => ?_, ih h.2 fun part hne hprefix hproper hpart => ?_⟩
      · obtain ⟨k', hk', heq⟩ := List.mem_map.mp hmem
        obtain ⟨rest, hsuffix, hback⟩ := Back.of_mem h.2 hhead hk'
        rw [heq, hhead v k h.1] at hback
        have hlength := hsuffix.length_le
        refine hfirst (k' :: rest) (by simp) ?_ ?_ hback
        · exact Back.prefix h hback (by simp only [List.length_cons] at hlength ⊢; omega)
        · intro hsame
          rw [hsame, List.length_cons] at hlength
          omega
      · refine hfirst (k :: part) (by simp) ((List.prefix_cons_inj k).mpr hprefix) ?_ ⟨h.1, hpart⟩
        intro hsame
        exact hproper (List.cons.inj hsame).2

/-- A way back, turned around, is a walk. -/
theorem Back.isWalk {back : List ι} (h : Back g pred v w back)
    (hpred : ∀ (v : Fin n) k, pred[v] = some k → k ∈ arcs ∧ g.head k = v) :
    IsWalk g arcs w v back.reverse := by
  induction back generalizing v with
  | nil =>
      obtain rfl : v = w := h
      exact rfl
  | cons k back ih =>
      obtain ⟨hk, hhead⟩ := hpred v k h.1
      rw [List.reverse_cons]
      exact (ih h.2).append ⟨hk, rfl, hhead⟩

/-- How far one can go back. -/
theorem walkBack_add (g : CostedArcs n ι α) (pred : Table (Option ι) n) (a b : Nat) (v : Fin n) :
    walkBack g pred (a + b) v = (walkBack g pred a v).bind (walkBack g pred b) := by
  induction a generalizing v with
  | zero => simp [walkBack]
  | succ a ih =>
      rw [Nat.add_right_comm]
      simp only [walkBack]
      cases pred[v] with
      | none => rfl
      | some k => exact ih (g.tail k)

/-- The way back to a node is found if it is not too long. -/
theorem traceBack_spec {stop : Fin n} {d count : Nat} (hpos : 0 < d) (hd : d ≤ count)
    (hwalk : walkBack g pred d v = some stop) :
    ∃ back, traceBack g pred stop count v = some back ∧ back ≠ [] ∧ Back g pred v stop back ∧
      First g pred v stop back := by
  induction count generalizing v d with
  | zero => omega
  | succ count ih =>
      obtain ⟨d, rfl⟩ : ∃ k, d = k + 1 := ⟨d - 1, by omega⟩
      cases hk : pred[v] with
      | none => simp [walkBack, hk] at hwalk
      | some k =>
          simp only [walkBack, hk] at hwalk
          by_cases hstop : g.tail k = stop
          · refine ⟨[k], by simp [traceBack, hk, hstop], by simp, ⟨hk, hstop⟩, ?_⟩
            intro part hne hprefix hproper
            rcases List.prefix_cons_iff.mp hprefix with rfl | ⟨rest, rfl, hrest⟩
            · exact absurd rfl hne
            · rw [List.prefix_nil.mp hrest] at hproper
              exact absurd rfl hproper
          · have hd' : 0 < d := by
              refine Nat.pos_of_ne_zero fun hzero => hstop ?_
              simpa [hzero, walkBack] using hwalk
            obtain ⟨back, htrace, -, hback, hfirst⟩ := ih hd' (by omega) hwalk
            refine ⟨k :: back, by simp [traceBack, hk, hstop, htrace], by simp, ⟨hk, hback⟩, ?_⟩
            intro part hne hprefix hproper hpart
            rcases List.prefix_cons_iff.mp hprefix with rfl | ⟨rest, rfl, hrest⟩
            · exact hne rfl
            · cases rest with
              | nil => exact hstop hpart.2
              | cons k' rest =>
                  refine hfirst (k' :: rest) (by simp) hrest (fun hsame => hproper ?_) hpart.2
                  rw [hsame]

/-- Whoever can go back `n` times comes onto a cycle. -/
theorem exists_return (h : walkBack g pred n v = some w) :
    ∃ d, 0 < d ∧ d ≤ n ∧ walkBack g pred d w = some w := by
  have hdefined : ∀ i, i ≤ n → ∃ x, walkBack g pred i v = some x := by
    intro i hi
    have hsplit := walkBack_add g pred i (n - i) v
    rw [Nat.add_sub_cancel' hi, h] at hsplit
    cases hx : walkBack g pred i v with
    | none => simp [hx] at hsplit
    | some x => exact ⟨x, rfl⟩
  have hnonempty : Nonempty (Fin n) := ⟨v⟩
  choose! x hx using hdefined
  obtain ⟨i, j, hij, hsame⟩ : ∃ i j : Fin (n + 1), i ≠ j ∧ x i = x j :=
    Fintype.exists_ne_map_eq_of_card_lt (fun i : Fin (n + 1) => x i) (by simp)
  -- of the two times at which the way back passes the same node, the first comes first
  obtain ⟨i, j, hlt, hj, hsame⟩ : ∃ i j : Nat, i < j ∧ j ≤ n ∧ x i = x j := by
    rcases lt_or_gt_of_ne (fun h => hij (Fin.ext h) : i.val ≠ j.val) with h | h
    · exact ⟨i, j, h, by omega, hsame⟩
    · exact ⟨j, i, h, by omega, hsame.symm⟩
  have hcycle : walkBack g pred (j - i) (x i) = some (x i) := by
    have hsplit := walkBack_add g pred i (j - i) v
    rw [Nat.add_sub_cancel' hlt.le, hx j hj, hx i (by omega), Option.bind_some] at hsplit
    rw [← hsplit, hsame]
  have hrest : walkBack g pred (n - i) (x i) = some w := by
    have hsplit := walkBack_add g pred i (n - i) v
    rw [Nat.add_sub_cancel' (by omega), h, hx i (by omega), Option.bind_some] at hsplit
    exact hsplit.symm
  refine ⟨j - i, by omega, by omega, ?_⟩
  have h₁ := walkBack_add g pred (n - i) (j - i) (x i)
  have h₂ := walkBack_add g pred (j - i) (n - i) (x i)
  rw [hrest, Option.bind_some] at h₁
  rw [hcycle, Option.bind_some, hrest, Nat.add_comm, h₁] at h₂
  exact h₂

end Walks

section Cycles

variable [Scalar α] {tolerance : α} {s : Labels n ι α}

/-- Each node that was improved remembers an arc of the list that leads to it. -/
def Remembers (g : CostedArcs n ι α) (arcs : List ι) (s : Labels n ι α) : Prop :=
  ∀ (v : Fin n) k, s.pred[v] = some k → k ∈ arcs ∧ g.head k = v

theorem Remembers.relax (h : Remembers g arcs s) {k : ι} (hk : k ∈ arcs) :
    Remembers g arcs (relax g tolerance s k) := by
  unfold BellmanFord.relax
  simp only
  split
  · intro v k' hk'
    simp only [Table.getElem_set] at hk'
    split at hk'
    · rename_i hv
      cases hk'
      exact ⟨hk, hv⟩
    · exact h v k' hk'
  · exact h

theorem Remembers.foldl {todo : List ι} (h : Remembers g arcs s) (htodo : todo ⊆ arcs) :
    Remembers g arcs (todo.foldl (BellmanFord.relax g tolerance) s) := by
  induction todo generalizing s with
  | nil => exact h
  | cons k todo ih =>
      exact ih (h.relax (htodo (by simp))) fun k' hk' => htodo (by simp [hk'])

theorem Remembers.rounds {count : Nat} (h : Remembers g arcs s) :
    Remembers g arcs (rounds g tolerance arcs count s) := by
  induction count generalizing s with
  | zero => exact h
  | succ count ih =>
      have hround : Remembers g arcs (round g tolerance arcs s) :=
        Remembers.foldl (s := { s with last := none }) h (List.Subset.refl arcs)
      simp only [BellmanFord.rounds]
      split
      · exact hround
      · exact ih hround

/-- Whatever the costs, what is taken for a negative cycle leads from a node back to it and passes
no node twice. -/
theorem run_closed {cycle : List ι} (h : run g tolerance arcs = .negativeCycle cycle) :
    (∃ u, IsWalk g arcs u u cycle) ∧ (cycle.map g.head).Nodup := by
  have hremembers : Remembers g arcs (rounds g tolerance arcs n (start n ι α)) :=
    Remembers.rounds fun v k hk => by simp [start] at hk
  unfold run at h
  generalize rounds g tolerance arcs n (start n ι α) = s at h hremembers
  have hhead : ∀ (v : Fin n) k, s.pred[v] = some k → g.head k = v :=
    fun v k hk => (hremembers v k hk).2
  simp only at h
  split at h
  swap
  · cases h
  rename_i hcycle
  cases h
  obtain ⟨v, -, hbehind⟩ := Option.bind_eq_some_iff.mp hcycle
  obtain ⟨stop, hstop, hbehind⟩ := Option.bind_eq_some_iff.mp hbehind
  obtain ⟨back, htrace, hbehind⟩ := Option.bind_eq_some_iff.mp hbehind
  cases hbehind
  obtain ⟨d, hpos, hd, hreturn⟩ := exists_return hstop
  obtain ⟨back', htrace', -, hback, hfirst⟩ :=
    traceBack_spec hpos (show d ≤ n + 1 by omega) hreturn
  obtain rfl : back = back' := by simpa [htrace] using htrace'
  refine ⟨⟨stop, hback.isWalk hremembers⟩, ?_⟩
  rw [List.map_reverse, List.nodup_reverse]
  exact hback.nodup hfirst hhead

end Cycles

end NetworkFlow.BellmanFord
