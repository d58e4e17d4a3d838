import NetworkFlow.NetworkSimplex.Pivot
import NetworkFlow.Proofs.NetworkSimplex.Refresh

/-!
# Hanging a stem the other way round

When the link of a node leaves the tree, the subtree that it cuts off is hung on
the other end of the entering arc. The nodes from the entering arc up to the
leaving link, the stem, then hang below each other in the opposite order, each by
the link that joined it to the one above it before.

`rehang` moves them one at a time. After every move the parents are a tree again,
since the node moved is not on the way up from its new parent: that way ran
outside the stem before, and now passes the nodes already moved.

## Main results

* `hung_move`: moving one node leaves a tree.
* `rehung_rehang`: what `rehang` changes, and that it leaves a tree in which the
  entering arc has taken the place of the leaving link.
-/

namespace NetworkFlow.NetworkSimplex

variable {n m : Nat} {α : Type} {t : Tableau n m α} {b : Basis n m α}

theorem OnWay.trans {parent : Table (Fin (n + 1)) n} {depth : Fin (n + 1) → Nat}
    (hd : Depths parent depth) {v w : Fin n} {u : Fin (n + 1)} (h : OnWay parent v (below w))
    (h' : OnWay parent w u) : OnWay parent v u := by
  induction hk : depth u generalizing u with
  | zero =>
      rcases eq_root_or_below u with rfl | ⟨x, rfl⟩
      · exact absurd h' not_onWay_root
      · have := hd.step x
        omega
  | succ k ih =>
      rcases eq_root_or_below u with rfl | ⟨x, rfl⟩
      · exact absurd h' not_onWay_root
      · have hstep := hd.step x
        rcases (hd.onWay_below w x).mp h' with rfl | hup
        · exact h
        · exact (hd.onWay_below v x).mpr (Or.inr (ih hup (by omega)))

theorem linked_detach (hb : Hung t b) (v : Fin n) :
    (b.detach v).children.Linked (Function.update (fun u => b.children[u]) b.parent[v]
      (b.children[b.parent[v]].erase v)) :=
  hb.linked.unlink ((hb.mem_children _ _).mpr rfl)

/-- The node taken out of the children of its parent, and no other one. -/
theorem mem_children_detach (hb : Hung t b) (v x : Fin n) (u : Fin (n + 1)) :
    x ∈ (b.detach v).children[u] ↔ x ≠ v ∧ b.parent[x] = u := by
  rw [(linked_detach hb v).getElem_eq]
  by_cases hp : u = b.parent[v]
  · rw [hp, Function.update_self, (hb.linked.nodup _).mem_erase_iff, hb.mem_children]
  · rw [Function.update_of_ne hp, hb.mem_children]
    constructor
    · intro hx
      refine ⟨?_, hx⟩
      rintro rfl
      exact hp hx.symm
    · exact fun hx => hx.2

/-- A node hung below another parent, by another link. -/
def Basis.move (b : Basis n m α) (v : Fin n) (outer : Fin (n + 1)) (a : Fin (m + n)) :
    Basis n m α :=
  (b.detach v).attach v outer a

section Move

variable {v : Fin n} {outer : Fin (n + 1)} {a : Fin (m + n)}

theorem parent_move (b : Basis n m α) (v : Fin n) (outer : Fin (n + 1)) (a : Fin (m + n))
    (x : Fin n) : (b.move v outer a).parent[x] = if v = x then outer else b.parent[x] :=
  Table.getElem_set ..

theorem link_move (b : Basis n m α) (v : Fin n) (outer : Fin (n + 1)) (a : Fin (m + n))
    (x : Fin n) : (b.move v outer a).link[x] = if v = x then a else b.link[x] :=
  Table.getElem_set ..

theorem linked_move (hb : Hung t b) : (b.move v outer a).children.Linked
    (Function.update (fun u => (b.detach v).children[u]) outer
      (v :: (b.detach v).children[outer])) :=
  (linked_detach hb v).self.link outer fun u hu => ((mem_children_detach hb v v u).mp hu).1 rfl

theorem mem_children_move (hb : Hung t b) (x : Fin n) (u : Fin (n + 1)) :
    x ∈ (b.move v outer a).children[u] ↔ (b.move v outer a).parent[x] = u := by
  rw [(linked_move hb).getElem_eq, parent_move]
  by_cases hx : v = x
  · subst hx
    by_cases hu : u = outer
    · simp [hu]
    · rw [Function.update_of_ne hu, if_pos rfl, mem_children_detach hb]
      simp [Ne.symm hu]
  · have hx' : x ≠ v := Ne.symm hx
    rw [if_neg hx]
    by_cases hu : u = outer
    · rw [hu, Function.update_self, List.mem_cons, mem_children_detach hb]
      simp [hx']
    · rw [Function.update_of_ne hu, mem_children_detach hb]
      simp [hx']

/-- The moved node has given its own link for the new one. -/
theorem exists_link_move (hb : Hung t b) (y : Fin (m + n)) :
    (∃ x : Fin n, (b.move v outer a).link[x] = y) ↔
      y = a ∨ ((∃ x : Fin n, b.link[x] = y) ∧ y ≠ b.link[v]) := by
  simp only [link_move]
  constructor
  · rintro ⟨x, hx⟩
    by_cases hvx : v = x
    · rw [if_pos hvx] at hx
      exact Or.inl hx.symm
    · rw [if_neg hvx] at hx
      refine Or.inr ⟨⟨x, hx⟩, ?_⟩
      rintro rfl
      exact hvx (hb.link_injective hx.symm)
  · rintro (rfl | ⟨⟨x, hx⟩, hne⟩)
    · exact ⟨v, if_pos rfl⟩
    · have hvx : v ≠ x := by
        rintro rfl
        exact hne hx.symm
      exact ⟨x, (if_neg hvx).trans hx⟩

/-- A way up that does not pass the moved node is as before. -/
theorem onWay_move {x : Fin n} {u : Fin (n + 1)} (hb : Hung t b) (hv : ¬ OnWay b.parent v u)
    (hx : OnWay (b.move v outer a).parent x u) : OnWay b.parent x u := by
  obtain ⟨depth, hd⟩ := hb.exists_depths
  obtain ⟨ws, hws⟩ := hd.exists_ascent u
  have hws' : Ascent (b.move v outer a).parent u ws (root n) := by
    apply hws.congr
    intro y hy
    have hvy : v ≠ y := by
      rintro rfl
      exact hv ⟨ws, hws, hy⟩
    rw [parent_move, if_neg hvy]
  exact ⟨ws, hws, (hws'.onWay_iff x).mp hx⟩

/-- A node moved to a parent that it is not above leaves a tree. -/
theorem hung_move (hb : Hung t b) (houter : ¬ OnWay b.parent v outer)
    (hjoins : Joins t a (below v) outer) : Hung t (b.move v outer a) := by
  refine ⟨fun x => ?_, fun u x => mem_children_move hb x u, (linked_move hb).self, ?_⟩
  · rw [parent_move, link_move]
    by_cases hx : v = x
    · subst hx
      simpa using hjoins
    · rw [if_neg hx, if_neg hx]
      exact hb.joins x
  · obtain ⟨depth, hd⟩ := hb.exists_depths
    exact hd.exists_move houter

end Move

/-- A stem, which begins with a node `v`, hangs the other way round: `v` below `outer` by the
arc `a`, and the others below it. The link of the last node is no longer in the tree. -/
structure Rehung (t : Tableau n m α) (b : Basis n m α) (v : Fin n) (rest : List (Fin n))
    (outer : Fin (n + 1)) (a : Fin (m + n)) (b' : Basis n m α) : Prop where
  eq : b' = { b with parent := b'.parent, link := b'.link, children := b'.children }
  hung : Hung t b'
  parent_first : b'.parent[v] = outer
  link_first : b'.link[v] = a
  same : ∀ x ∉ v :: rest, b'.parent[x] = b.parent[x] ∧ b'.link[x] = b.link[x]
  onWay : ∀ x ∈ v :: rest, OnWay b'.parent v (below x)
  exists_link : ∀ y, (∃ x : Fin n, b'.link[x] = y) ↔
    y = a ∨ ((∃ x : Fin n, b.link[x] = y) ∧
      y ≠ b.link[(v :: rest).getLast (List.cons_ne_nil _ _)])

/-- A stem of one node. -/
theorem rehung_move (hb : Hung t b) {v : Fin n} {outer : Fin (n + 1)} {a : Fin (m + n)}
    (houter : ¬ OnWay b.parent v outer) (hjoins : Joins t a (below v) outer) :
    Rehung t b v [] outer a (b.move v outer a) := by
  have hmoved := hung_move hb houter hjoins
  refine ⟨rfl, hmoved, Table.getElem_set_self .., Table.getElem_set_self .., fun x hx => ?_,
    fun x hx => ?_, exists_link_move hb⟩
  · have hne : v ≠ x := fun h => hx (by simp [h])
    rw [parent_move, link_move, if_neg hne, if_neg hne]
    exact ⟨rfl, rfl⟩
  · obtain rfl : x = v := by simpa using hx
    exact hmoved.onWay_self x

/-- The first node of a stem is moved, then the others are hung below it. -/
theorem Rehung.cons (hb : Hung t b) {v v' : Fin n} {rest : List (Fin n)} {outer : Fin (n + 1)}
    {a : Fin (m + n)} {b' : Basis n m α} (hv : v ∉ v' :: rest) (ha : ∀ x : Fin n, b.link[x] ≠ a)
    (h : Rehung t (b.move v outer a) v' rest (below v) b.link[v] b') :
    Rehung t b v (v' :: rest) outer a b' := by
  obtain ⟨depth, hd⟩ := h.hung.exists_depths
  obtain ⟨hparent, hlink⟩ := h.same v hv
  have hlast : v ≠ (v' :: rest).getLast (List.cons_ne_nil _ _) := by
    intro heq
    exact hv (heq ▸ List.getLast_mem _)
  refine ⟨h.eq, h.hung, ?_, ?_, fun x hx => ?_, fun x hx => ?_, fun y => ?_⟩
  · rw [hparent, parent_move, if_pos rfl]
  · rw [hlink, link_move, if_pos rfl]
  · rw [List.mem_cons, not_or] at hx
    obtain ⟨h₁, h₂⟩ := h.same x hx.2
    rw [h₁, h₂, parent_move, link_move, if_neg (Ne.symm hx.1), if_neg (Ne.symm hx.1)]
    exact ⟨rfl, rfl⟩
  · rcases List.mem_cons.mp hx with rfl | hx
    · exact h.hung.onWay_self x
    · have hnext : OnWay b'.parent v (below v') := by
        refine (hd.onWay_below v v').mpr (Or.inr ?_)
        rw [h.parent_first]
        exact h.hung.onWay_self v
      exact hnext.trans hd (h.onWay x hx)
  · have hold : b.link[v] ≠ b.link[(v' :: rest).getLast (List.cons_ne_nil _ _)] :=
      fun heq => hlast (hb.link_injective heq)
    have hlast' := link_move b v outer a ((v' :: rest).getLast (List.cons_ne_nil _ _))
    rw [if_neg hlast] at hlast'
    rw [h.exists_link y, exists_link_move hb, hlast', List.getLast_cons (List.cons_ne_nil v' rest)]
    -- the link of `v` left the tree with `v` and comes back with `v'`
    constructor
    · rintro (rfl | ⟨rfl | ⟨hy, -⟩, hne⟩)
      · exact Or.inr ⟨⟨v, rfl⟩, hold⟩
      · exact Or.inl rfl
      · exact Or.inr ⟨hy, hne⟩
    · rintro (rfl | ⟨hy, hne⟩)
      · exact Or.inr ⟨Or.inl rfl, (ha _).symm⟩
      · by_cases hyv : y = b.link[v]
        · exact Or.inl hyv
        · exact Or.inr ⟨Or.inr ⟨hy, hyv⟩, hne⟩

theorem rehung_rehang (hb : Hung t b) {v : Fin n} {rest : List (Fin n)} {outer w : Fin (n + 1)}
    {a : Fin (m + n)} (hstem : Ascent b.parent (below v) (v :: rest) w)
    (houter : ∀ x ∈ v :: rest, ¬ OnWay b.parent x outer) (hjoins : Joins t a (below v) outer)
    (ha : ∀ x : Fin n, b.link[x] ≠ a) :
    Rehung t b v rest outer a (rehang b (v :: rest) outer a) := by
  induction rest generalizing b v outer a with
  | nil => exact rehung_move hb (houter v (by simp)) hjoins
  | cons v' rest ih =>
      have hmoved := hung_move hb (houter v (by simp)) hjoins
      obtain ⟨depth, hd⟩ := hb.exists_depths
      obtain ⟨depth', hd'⟩ := hmoved.exists_depths
      have hv : v ∉ v' :: rest := (List.nodup_cons.mp (hd.nodup hstem)).1
      have hne : ∀ x ∈ v' :: rest, v ≠ x := by
        rintro x hx rfl
        exact hv hx
      have hup : b.parent[v] = below v' := hstem.2.1
      have hstem' : Ascent (b.move v outer a).parent (below v') (v' :: rest) w := by
        apply Ascent.congr (hup ▸ hstem.2)
        intro x hx
        rw [parent_move, if_neg (hne x hx)]
      have houter' : ∀ x ∈ v' :: rest, ¬ OnWay (b.move v outer a).parent x (below v) := by
        intro x hx hon
        have hon' := ((hd'.onWay_below x v).mp hon).resolve_left (hne x hx).symm
        rw [parent_move, if_pos rfl] at hon'
        exact houter x (List.mem_cons_of_mem v hx) (onWay_move hb (houter v (by simp)) hon')
      have ha' : ∀ x : Fin n, (b.move v outer a).link[x] ≠ b.link[v] := by
        intro x hx
        rcases (exists_link_move hb _).mp ⟨x, hx⟩ with h | h
        · exact ha v h
        · exact h.2 rfl
      exact Rehung.cons hb hv ha (ih hmoved hstem' houter' (hup ▸ (hb.joins v).symm) ha')

end NetworkFlow.NetworkSimplex
