import NetworkFlow.Proofs.NetworkSimplex.Cycle
import NetworkFlow.Proofs.NetworkSimplex.Rehang

/-!
# Exchanging a link for the entering arc

The link of a node on the cycle leaves, the entering arc enters, and the stem
between them is hung the other way round. Only nodes at or below the end of the
entering arc have changed their way up, and refreshing from that end settles
them all.

## Main results

* `layered_rehang`: what is left before the tree is refreshed.
* `exists_exchange`: the exchange leaves a spanning tree.
-/

namespace NetworkFlow.NetworkSimplex

variable {n m : Nat} {α : Type} {t : Tableau n m α} {b : Basis n m α}

/-- The stem is the beginning of the side up to the node whose link leaves. -/
theorem exists_stem {parent : Table (Fin (n + 1)) n} {u w : Fin (n + 1)} {side : List (Fin n)}
    {v : Fin n} (hside : Ascent parent u side w) (hv : v ∈ side) :
    ∃ x rest, stem side v = x :: rest ∧ side.take 1 = [x] ∧ u = below x ∧
      Ascent parent u (x :: rest) parent[v] ∧ (x :: rest) ⊆ side ∧
      (x :: rest).getLast (List.cons_ne_nil _ _) = v := by
  obtain ⟨post, hpost⟩ : ∃ post, side = side.takeWhile (· ≠ v) ++ v :: post := by
    induction side generalizing u with
    | nil => simp at hv
    | cons y ys ih =>
        by_cases hy : y = v
        · exact ⟨ys, by simp [hy]⟩
        · obtain ⟨post, hpost⟩ := ih hside.2 ((List.mem_cons.mp hv).resolve_left (Ne.symm hy))
          refine ⟨post, ?_⟩
          rw [List.takeWhile_cons_of_pos (by simpa using hy), List.cons_append, ← hpost]
  have hstem : side = stem side v ++ post := by
    rw [stem, List.append_assoc]
    exact hpost
  have hascent : Ascent parent u (stem side v) parent[v] := by
    rw [hpost] at hside
    exact hside.prefix_of_append
  cases hcase : stem side v with
  | nil => simp [stem] at hcase
  | cons x rest =>
      rw [hcase] at hascent hstem
      refine ⟨x, rest, rfl, by rw [hstem]; rfl, hascent.1, hascent, ?_, ?_⟩
      · rw [hstem]
        exact List.subset_append_left _ _
      · simp only [← hcase, stem, List.getLast_append_singleton]

/-- A node whose parent and link stay, and whose tables stay, stays settled. -/
theorem settled_update [Scalar α] {v : Fin n} {parent : Table (Fin (n + 1)) n}
    {link : Table (Fin (m + n)) n} (children : Siblings n)
    (hparent : parent[v] = b.parent[v]) (hlink : link[v] = b.link[v]) (h : Settled t b v) :
    Settled t { b with parent := parent, link := link, children := children } v := by
  obtain ⟨h₁, h₂⟩ := h
  refine ⟨?_, ?_⟩
  · show b.depth[below v] = b.depth[parent[v]] + 1
    rw [hparent, h₁]
  · show b.potential[below v] = _
    rw [h₂]
    simp only [Basis.linkedPotential, hparent, hlink]

/-- Afterwards the arcs in the state of a tree arc are the links with the entering arc in the
place of the leaving one. -/
theorem state_exchange [Scalar α] (hb : Spanning t b) {a : Fin (m + n)} {v : Fin n} {s : ArcState}
    (ha : ∀ y : Fin n, b.link[y] ≠ a) (hs : s ≠ .tree) (y : Fin (m + n)) :
    ((b.state.set a .tree).set b.link[v] s)[y] = .tree ↔
      y = a ∨ ((∃ x : Fin n, b.link[x] = y) ∧ y ≠ b.link[v]) := by
  rw [Table.getElem_set, Table.getElem_set]
  by_cases hyv : b.link[v] = y
  · subst hyv
    simp [hs, ha v]
  · have hyv' : y ≠ b.link[v] := Ne.symm hyv
    by_cases hya : a = y
    · simp [hya, hyv]
    · have hya' : y ≠ a := Ne.symm hya
      simp only [hyv, hya, hyv', hya', if_false, false_or, ne_eq, not_false_eq_true, and_true]
      exact hb.state_tree y

/-- What is left of a spanning tree when the stem hangs from the entering arc: a tree that waits to be
refreshed from the first node of the stem on. -/
theorem layered_rehang [Scalar α] (hb : Spanning t b) {inner outer top : Fin (n + 1)}
    {side other : List (Fin n)} (hside : Ascent b.parent inner side top)
    (hother : Ascent b.parent outer other top) (hdis : side.Disjoint other) {a : Fin (m + n)}
    (hjoins : Joins t a inner outer) (ha : b.state[a] ≠ .tree) {v : Fin n} (hv : v ∈ side)
    (state : Table ArcState (m + n)) : ∃ b',
      rehang { b with state := state } (stem side v) outer a = b' ∧
      b' = { b with
        state := state, parent := b'.parent, link := b'.link, children := b'.children } ∧
      (∃ depth k, 1 ≤ k ∧ Layered t b' depth k (side.take 1)) ∧
      ∀ y, (∃ x : Fin n, b'.link[x] = y) ↔
        y = a ∨ ((∃ x : Fin n, b.link[x] = y) ∧ y ≠ b.link[v]) := by
  obtain ⟨x, rest, hstem, htake, rfl, hascent, hsub, hlast⟩ := exists_stem hside hv
  have houter : ∀ y ∈ x :: rest, ¬ OnWay b.parent y outer := by
    intro y hy hon
    obtain ⟨vs, hvs⟩ := hb.depths.exists_ascent top
    rw [(hother.append hvs).onWay_iff, List.mem_append] at hon
    rcases hon with hmem | hmem
    · exact hdis (hsub hy) hmem
    · have h₁ := (hb.depths.lt_of_mem hside (hsub hy)).1
      have h₂ := (hb.depths.lt_of_mem hvs hmem).2
      omega
  have hfresh : ∀ y : Fin n, b.link[y] ≠ a := by
    intro y hy
    exact ha ((hb.state_tree a).mpr ⟨y, hy⟩)
  obtain ⟨heq, hhung, -, -, hsame, hway, hlinks⟩ := rehung_rehang (b := { b with state := state })
    ⟨hb.joins, hb.mem_children, hb.linked, hb.exists_depths⟩ hascent houter hjoins hfresh
  refine ⟨rehang { b with state := state } (x :: rest) outer a, by rw [hstem], heq, ?_,
    fun y => by rw [hlinks y, hlast]⟩
  rw [htake]
  generalize rehang { b with state := state } (x :: rest) outer a = b' at *
  obtain ⟨depth, hd⟩ := hhung.exists_depths
  refine ⟨depth, depth (below x), ?_, hhung, hd, by simp, fun y => ?_⟩
  · have := hd.step x
    omega
  · by_cases hy : y ∈ x :: rest
    · exact Or.inr ⟨x, by simp, hway y hy⟩
    · obtain ⟨h₁, h₂⟩ := hsame y hy
      rw [heq]
      exact Or.inl (settled_update b'.children h₁ h₂ (hb.settled y))

/-- Exchanging the link of a node on one side of the cycle for the entering arc leaves a
spanning tree, and changes only the tree and the states of the two arcs. -/
theorem exists_exchange [Scalar α] (hb : Spanning t b) {inner outer top : Fin (n + 1)}
    {side other : List (Fin n)} (hside : Ascent b.parent inner side top)
    (hother : Ascent b.parent outer other top) (hdis : side.Disjoint other) {a : Fin (m + n)}
    (hjoins : Joins t a inner outer) (ha : b.state[a] ≠ .tree) {v : Fin n} (hv : v ∈ side)
    {s : ArcState} (hs : s ≠ .tree) :
    ∃ b', Basis.refresh t
        (rehang { b with state := (b.state.set a .tree).set b.link[v] s } (stem side v) outer a)
        (n + 1) (side.take 1) = b' ∧
      b'.flow = b.flow ∧ b'.state = (b.state.set a .tree).set b.link[v] s ∧
      b'.bland = b.bland ∧ b'.cursor = b.cursor ∧ Spanning t b' := by
  have hfresh : ∀ y : Fin n, b.link[y] ≠ a := by
    intro y hy
    exact ha ((hb.state_tree a).mpr ⟨y, hy⟩)
  obtain ⟨b', heq, hshape, ⟨depth, k, hk, hlayered⟩, hlinks⟩ :=
    layered_rehang hb hside hother hdis hjoins ha hv ((b.state.set a .tree).set b.link[v] s)
  obtain ⟨depth', potential', heq', hroot₁, hroot₂, hsettled⟩ :=
    exists_refresh hlayered (show n + 1 ≤ k + (n + 1) by omega)
  rw [hshape] at hroot₁ hroot₂
  rw [heq, heq']
  refine ⟨_, rfl, by rw [hshape], by rw [hshape], by rw [hshape], by rw [hshape],
    ⟨hlayered.hung.joins, hlayered.hung.mem_children, hlayered.hung.linked,
      hlayered.hung.exists_depths⟩,
    hroot₁.trans hb.depth_root, hroot₂.trans hb.potential_root, hsettled, ?_⟩
  intro y
  have hstate : b'.state = (b.state.set a .tree).set b.link[v] s := by rw [hshape]
  show b'.state[y] = .tree ↔ ∃ x : Fin n, b'.link[x] = y
  rw [hlinks y, hstate]
  exact state_exchange hb hfresh hs y

end NetworkFlow.NetworkSimplex
