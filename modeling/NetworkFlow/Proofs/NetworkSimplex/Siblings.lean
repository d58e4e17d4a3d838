import Mathlib.Data.Fintype.Card
import Mathlib.Data.List.Nodup
import NetworkFlow.NetworkSimplex.Siblings

/-!
# Linked lists of siblings

`Linked s lists` says that the pointers are those of lists, one for every node: the
node knows the first of its list, and everyone on a list knows its neighbours, which
know it in turn. What `s[u]` reads by following the pointers is then the list of `u`.

A node is on one list only, so `link` and `unlink` write nowhere else than at the
ends and neighbours that the node has on this one.

## Main results

* `Linked.getElem_eq`: following the pointers from the first child gives the list.
* `Linked.link`, `Linked.unlink`: putting a node in front of a list and taking one out.
* `Linked.prev_of_next`, `Linked.next_of_prev`: neighbours know each other.
-/

namespace NetworkFlow.NetworkSimplex.Siblings

variable {n : Nat} {s : Siblings n} {lists : Fin (n + 1) → List (Fin n)} {v w : Fin n}
  {parent u : Fin (n + 1)}

/-- The pointers are those of lists, none of which has a node twice or shares one with
another list. -/
structure Linked (s : Siblings n) (lists : Fin (n + 1) → List (Fin n)) : Prop where
  first_eq : ∀ u : Fin (n + 1), s.first[u] = (lists u).head?
  neighbours : ∀ {u : Fin (n + 1)} {v : Fin n} {before after : List (Fin n)},
    lists u = before ++ v :: after → s.prev[v] = before.getLast? ∧ s.next[v] = after.head?
  nodup : ∀ u, (lists u).Nodup
  apart : ∀ {u u' : Fin (n + 1)} {v : Fin n}, v ∈ lists u → v ∈ lists u' → u = u'

section Reading

theorem Linked.chain_eq (h : Linked s lists) (before : List (Fin n)) {after : List (Fin n)}
    {count : Nat} (hu : lists u = before ++ after) (hcount : after.length ≤ count) :
    s.chain count after.head? = after := by
  induction after generalizing before count with
  | nil => cases count <;> rfl
  | cons v after ih =>
      rw [List.length_cons] at hcount
      obtain ⟨count, rfl⟩ : ∃ c, count = c + 1 := ⟨count - 1, by omega⟩
      have hrest := ih (before ++ [v]) (by simpa using hu) (Nat.le_of_succ_le_succ hcount)
      rw [← (h.neighbours hu).2] at hrest
      rw [List.head?_cons, chain, hrest]

/-- Following the pointers gives the list. -/
theorem Linked.getElem_eq (h : Linked s lists) (u : Fin (n + 1)) : s[u] = lists u := by
  show s.chain n s.first[u] = lists u
  rw [h.first_eq]
  refine h.chain_eq [] rfl ?_
  have hcard := (h.nodup u).length_le_card
  rwa [Fintype.card_fin] at hcard

/-- The lists are what one reads by following the pointers. -/
theorem Linked.self (h : Linked s lists) : Linked s fun u => s[u] := by
  have heq : (fun u => s[u]) = lists := funext h.getElem_eq
  rwa [heq]

/-- The sibling after a node has that node before it. -/
theorem Linked.prev_of_next (h : Linked s lists) (hv : v ∈ lists u) (hnext : s.next[v] = some w) :
    w ∈ lists u ∧ s.prev[w] = some v := by
  obtain ⟨before, after, hlist⟩ := List.append_of_mem hv
  rw [(h.neighbours hlist).2] at hnext
  obtain ⟨rest, rfl⟩ := List.head?_eq_some_iff.mp hnext
  have hlist' : lists u = (before ++ [v]) ++ w :: rest := by simpa using hlist
  exact ⟨by simp [hlist], by simp [(h.neighbours hlist').1]⟩

/-- The sibling before a node has that node after it. -/
theorem Linked.next_of_prev (h : Linked s lists) (hv : v ∈ lists u) (hprev : s.prev[v] = some w) :
    w ∈ lists u ∧ s.next[w] = some v := by
  obtain ⟨before, after, hlist⟩ := List.append_of_mem hv
  rw [(h.neighbours hlist).1] at hprev
  obtain ⟨rest, rfl⟩ := List.getLast?_eq_some_iff.mp hprev
  have hlist' : lists u = rest ++ w :: v :: after := by simpa using hlist
  exact ⟨by simp [hlist], by simp [(h.neighbours hlist').2]⟩

/-- The first of a list is on it. -/
theorem Linked.mem_of_first (h : Linked s lists) (hfirst : s.first[u] = some v) : v ∈ lists u := by
  rw [h.first_eq] at hfirst
  exact List.mem_of_mem_head? hfirst

end Reading

section Writing

theorem first_link (s : Siblings n) (v : Fin n) (parent u : Fin (n + 1)) :
    (s.link v parent).first[u] = if parent = u then some v else s.first[u] :=
  Table.getElem_set ..

theorem next_link (s : Siblings n) (v w : Fin n) (parent : Fin (n + 1)) :
    (s.link v parent).next[w] = if v = w then s.first[parent] else s.next[w] :=
  Table.getElem_set ..

theorem prev_link (s : Siblings n) (v w : Fin n) (parent : Fin (n + 1)) :
    (s.link v parent).prev[w] =
      if s.first[parent] = some w then some v else if v = w then none else s.prev[w] := by
  unfold link
  cases s.first[parent] with
  | none => simp [Table.getElem_set]
  | some head => simp [Table.getElem_set]

theorem first_unlink (s : Siblings n) (v : Fin n) (parent u : Fin (n + 1)) :
    (s.unlink v parent).first[u] =
      if s.prev[v] = none ∧ parent = u then s.next[v] else s.first[u] := by
  unfold unlink
  cases s.prev[v] with
  | none => simp [Table.getElem_set]
  | some before => simp

theorem next_unlink (s : Siblings n) (v w : Fin n) (parent : Fin (n + 1)) :
    (s.unlink v parent).next[w] = if s.prev[v] = some w then s.next[v] else s.next[w] := by
  unfold unlink
  cases s.prev[v] with
  | none => simp
  | some before => simp [Table.getElem_set]

theorem prev_unlink (s : Siblings n) (v w : Fin n) (parent : Fin (n + 1)) :
    (s.unlink v parent).prev[w] = if s.next[v] = some w then s.prev[v] else s.prev[w] := by
  unfold unlink
  cases s.next[v] with
  | none => simp
  | some after => simp [Table.getElem_set]

end Writing

theorem linked_empty (n : Nat) : Linked (empty n) fun _ => [] where
  first_eq u := by simp [empty]
  neighbours hlist := by simp at hlist
  nodup _ := List.nodup_nil
  apart hv := by simp at hv

section Link

/-- The neighbours on a list that has got a new first node. -/
theorem Linked.neighbours_front (h : Linked s lists) (hv : ∀ u, v ∉ lists u)
    {before after : List (Fin n)} (hlist : v :: lists parent = before ++ w :: after) :
    (s.link v parent).prev[w] = before.getLast? ∧ (s.link v parent).next[w] = after.head? := by
  rw [prev_link, next_link]
  cases before with
  | nil =>
      obtain ⟨rfl, rfl⟩ := List.cons.inj hlist
      have hfirst : s.first[parent] ≠ some v := fun heq => hv parent (h.mem_of_first heq)
      rw [if_neg hfirst, if_pos rfl, if_pos rfl, h.first_eq]
      exact ⟨rfl, rfl⟩
  | cons x before =>
      obtain ⟨rfl, hold⟩ := List.cons.inj hlist
      have hne : v ≠ w := by
        rintro rfl
        exact hv parent (by simp [hold])
      obtain ⟨hprev, hnext⟩ := h.neighbours hold
      rw [if_neg hne, if_neg hne, hprev, hnext, h.first_eq, hold]
      cases before with
      | nil => simp
      | cons y before =>
          -- the old first node is another one, for the list does not repeat it
          have hyw : y ≠ w := by
            rintro rfl
            have hnodup := h.nodup parent
            rw [hold] at hnodup
            simp at hnodup
          simp [hyw]

/-- A node that is on no list is put in front of one. -/
theorem Linked.link (h : Linked s lists) (parent : Fin (n + 1)) (hv : ∀ u, v ∉ lists u) :
    Linked (s.link v parent) (Function.update lists parent (v :: lists parent)) := by
  have hself : Function.update lists parent (v :: lists parent) parent = v :: lists parent :=
    Function.update_self ..
  have hother : ∀ u, u ≠ parent → Function.update lists parent (v :: lists parent) u = lists u :=
    fun u hu => Function.update_of_ne hu ..
  have hmem : ∀ {u w}, w ∈ Function.update lists parent (v :: lists parent) u →
      (w = v ∧ u = parent) ∨ (w ≠ v ∧ w ∈ lists u) := by
    intro u w hw
    by_cases hu : u = parent
    · subst hu
      rw [hself, List.mem_cons] at hw
      rcases hw with rfl | hw
      · exact Or.inl ⟨rfl, rfl⟩
      · exact Or.inr ⟨fun heq => hv u (heq ▸ hw), hw⟩
    · rw [hother u hu] at hw
      exact Or.inr ⟨fun heq => hv u (heq ▸ hw), hw⟩
  refine ⟨fun u => ?_, fun {u w before after} hlist => ?_, fun u => ?_, fun {u u' w} hw hw' => ?_⟩
  · rw [first_link]
    by_cases hu : u = parent
    · rw [if_pos hu.symm, hu, hself, List.head?_cons]
    · rw [if_neg (Ne.symm hu), hother u hu, h.first_eq]
  · by_cases hu : u = parent
    · subst hu
      rw [hself] at hlist
      exact h.neighbours_front hv hlist
    · rw [hother u hu] at hlist
      have hw : w ∈ lists u := by simp [hlist]
      have hne : v ≠ w := by
        rintro rfl
        exact hv u hw
      have hfirst : s.first[parent] ≠ some w := fun heq => hu (h.apart hw (h.mem_of_first heq))
      rw [prev_link, next_link, if_neg hfirst, if_neg hne, if_neg hne]
      exact h.neighbours hlist
  · by_cases hu : u = parent
    · rw [hu, hself]
      exact List.nodup_cons.mpr ⟨hv parent, h.nodup parent⟩
    · rw [hother u hu]
      exact h.nodup u
  · rcases hmem hw with ⟨rfl, rfl⟩ | ⟨hne, hw⟩
    · rcases hmem hw' with ⟨-, rfl⟩ | ⟨hne', -⟩
      · rfl
      · exact absurd rfl hne'
    · rcases hmem hw' with ⟨rfl, -⟩ | ⟨-, hw'⟩
      · exact absurd rfl hne
      · exact h.apart hw hw'

/-- Nodes that are on no list are put in front of one, one after the other. -/
theorem Linked.foldl_link (h : Linked s lists) (parent : Fin (n + 1)) {nodes : List (Fin n)}
    (hnodup : nodes.Nodup) (hnodes : ∀ v ∈ nodes, ∀ u, v ∉ lists u) :
    Linked (nodes.foldl (fun s v => s.link v parent) s)
      (Function.update lists parent (nodes.reverse ++ lists parent)) := by
  induction nodes generalizing s lists with
  | nil => simpa using h
  | cons v nodes ih =>
      obtain ⟨hv, hnodup⟩ := List.nodup_cons.mp hnodup
      have hlinked := h.link parent (hnodes v (by simp))
      have hrest := ih hlinked hnodup fun w hw u hmem => by
        have hold : w ∉ lists u := hnodes w (by simp [hw]) u
        by_cases hu : u = parent
        · subst hu
          rw [Function.update_self, List.mem_cons] at hmem
          rcases hmem with rfl | hmem
          · exact hv hw
          · exact hold hmem
        · rw [Function.update_of_ne hu] at hmem
          exact hold hmem
      simpa using hrest

end Link

section Unlink

/-- What comes before a node on its list, and what comes after it, does not hold the node. -/
theorem Linked.notMem_of_split (h : Linked s lists) {before after : List (Fin n)}
    (hlist : lists u = before ++ v :: after) : v ∉ before ∧ v ∉ after := by
  have hnodup := h.nodup u
  rw [hlist, List.nodup_middle, List.nodup_cons, List.mem_append, not_or] at hnodup
  exact hnodup.1

/-- The neighbours on a list from which a node has been taken. -/
theorem Linked.neighbours_without (h : Linked s lists) {front back before after : List (Fin n)}
    (hold : lists parent = front ++ v :: back) (hlist : front ++ back = before ++ w :: after) :
    (s.unlink v parent).prev[w] = before.getLast? ∧
      (s.unlink v parent).next[w] = after.head? := by
  obtain ⟨hprev, hnext⟩ := h.neighbours hold
  rw [prev_unlink, next_unlink, hprev, hnext]
  rcases List.append_eq_append_iff.mp hlist with ⟨between, rfl, rfl⟩ | ⟨between, rfl, hback⟩
  · -- the other node comes after the one that is taken out
    have hold' : lists parent = (front ++ v :: between) ++ w :: after := by simpa using hold
    obtain ⟨hprev', hnext'⟩ := h.neighbours hold'
    have hnotMem := (h.notMem_of_split hold').1
    have hfront : front.getLast? ≠ some w := fun heq =>
      hnotMem (List.mem_append_left _ (List.mem_of_getLast? heq))
    rw [if_neg hfront, hprev', hnext']
    cases between with
    | nil => simp
    | cons y between =>
        have hyw : y ≠ w := by
          rintro rfl
          simp at hnotMem
        simp [hyw, List.getLast?_append]
  · cases between with
    | nil =>
        -- the other node comes right after it
        obtain rfl : w :: after = back := by simpa using hback
        have hold' : lists parent = (before ++ [v]) ++ w :: after := by simpa using hold
        have hnotMem := (h.notMem_of_split hold').1
        have hfront : before.getLast? ≠ some w := fun heq =>
          hnotMem (List.mem_append_left _ (List.mem_of_getLast? heq))
        simp [hfront, (h.neighbours hold').2]
    | cons x between =>
        -- the other node comes before it
        obtain ⟨rfl, rfl⟩ := List.cons.inj hback
        have hold' : lists parent = before ++ w :: (between ++ v :: back) := by simpa using hold
        obtain ⟨hprev', hnext'⟩ := h.neighbours hold'
        have hnotMem := (h.notMem_of_split hold').2
        have hhead : back.head? ≠ some w := fun heq =>
          hnotMem (by simp [List.mem_of_mem_head? heq])
        rw [if_neg hhead, hprev', hnext']
        cases between with
        | nil => simp
        | cons y between =>
            have hlast : (before ++ w :: y :: between).getLast? ≠ some w := by
              intro heq
              have hmem : (y :: between).getLast? = some w := by
                simpa [List.getLast?_append] using heq
              exact hnotMem (List.mem_append_left _ (List.mem_of_getLast? hmem))
            rw [if_neg hlast]
            exact ⟨rfl, rfl⟩

/-- A node is taken out of the list that it is on. -/
theorem Linked.unlink (h : Linked s lists) (hv : v ∈ lists parent) :
    Linked (s.unlink v parent) (Function.update lists parent ((lists parent).erase v)) := by
  obtain ⟨front, back, hold⟩ := List.append_of_mem hv
  obtain ⟨hprev, hnext⟩ := h.neighbours hold
  have hself : Function.update lists parent ((lists parent).erase v) parent = front ++ back := by
    rw [Function.update_self, hold, List.erase_append_right _ (h.notMem_of_split hold).1,
      List.erase_cons_head]
  have hother : ∀ u, u ≠ parent →
      Function.update lists parent ((lists parent).erase v) u = lists u :=
    fun u hu => Function.update_of_ne hu ..
  have hsub : ∀ u, (Function.update lists parent ((lists parent).erase v) u).Sublist (lists u) := by
    intro u
    by_cases hu : u = parent
    · rw [hu, Function.update_self]
      exact List.erase_sublist
    · rw [hother u hu]
  refine ⟨fun u => ?_, fun {u w before after} hlist => ?_, fun u => (h.nodup u).sublist (hsub u),
    fun {u u' w} hw hw' => h.apart ((hsub u).subset hw) ((hsub u').subset hw')⟩
  · rw [first_unlink, hprev, hnext, h.first_eq]
    by_cases hu : u = parent
    · rw [hu, hself, hold]
      cases front with
      | nil => simp
      | cons x front => simp
    · rw [if_neg (fun heq => hu heq.2.symm), hother u hu]
  · by_cases hu : u = parent
    · rw [hu, hself] at hlist
      exact h.neighbours_without hold hlist
    · rw [hother u hu] at hlist
      have hw : w ∈ lists u := by simp [hlist]
      -- no neighbour of the node that is taken out is on another list
      have hbefore : s.prev[v] ≠ some w := fun heq => hu (h.apart hw (h.next_of_prev hv heq).1)
      have hafter : s.next[v] ≠ some w := fun heq => hu (h.apart hw (h.prev_of_next hv heq).1)
      rw [prev_unlink, next_unlink, if_neg hbefore, if_neg hafter]
      exact h.neighbours hlist

end Unlink

end NetworkFlow.NetworkSimplex.Siblings
