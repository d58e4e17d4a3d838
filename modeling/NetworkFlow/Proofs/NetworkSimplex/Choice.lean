import NetworkFlow.Proofs.NetworkSimplex.Termination
import NetworkFlow.Proofs.NetworkSimplex.Visited
import NetworkFlow.Proofs.ScalarOrder

/-!
# Which arc the search for the entering arc finds

An arc outside the tree is eligible if its reduced cost is beyond the tolerance on the wrong side,
and it is as severe as its reduced cost is large. A rule says which of two eligible arcs it would
rather have (`Prefers`): the one of smaller number, the first one from the cursor on, the more
severe one, or the one in the earlier block and among those of a block the more severe one. The
blocks are counted from the cursor on, through the last arc to the first one, and the last block
may be shorter.

The searches from the cursor on go through the list of the arcs in that order. What the block
search knows of the arcs behind it is said by their places (`Scanned`): all eligible ones are in
the block that it is in, and none is more severe than the best one so far. So a block that ends
without an eligible arc, and a last block that is shorter, leave nothing out.

## Main results

* `getElem?_fromCursor_iff`: the place of an arc in the cyclic order.
* `prefers_of_searchFirst`, `prefers_of_searchBest`, `prefers_of_searchBlocks`: what each search
  finds.
* `findEntering_chooses`: for every basis, an arc is found exactly if one is eligible, it is one
  that the rule prefers, and the cursor stays on an arc.
* `inForce_of_visited`: once it is chosen, the rule that cannot cycle is in force all along.
-/

namespace NetworkFlow.NetworkSimplex

variable {n m : Nat} {α : Type} [Scalar α]

section Preference

/-- An arc outside the tree whose reduced cost is beyond the tolerance on the wrong side. -/
def Eligible (t : Tableau n m α) (b : Basis n m α) (a : Fin (m + n)) : Prop :=
  (b.state[a] = .lower ∧ reducedCost t b a < -t.tolerance) ∨
    (b.state[a] = .upper ∧ t.tolerance < reducedCost t b a)

/-- How far the reduced cost of an arc outside the tree is on the wrong side. -/
def severity (t : Tableau n m α) (b : Basis n m α) (a : Fin (m + n)) : α :=
  if b.state[a] = .lower then -reducedCost t b a else reducedCost t b a

/-- How many arcs come before an arc in the cyclic order from the cursor. -/
def place (b : Basis n m α) (a : Fin (m + n)) : Nat :=
  if b.cursor ≤ a then a - b.cursor else a + (m + n) - b.cursor

/-- The block that holds a place, for blocks of a size. -/
def blockOf (t : Tableau n m α) (b : Basis n m α) (a : Fin (m + n)) : Nat := place b a / t.blockSize

/-- The rule by which the next entering arc is chosen. -/
def inForce (t : Tableau n m α) (b : Basis n m α) : PivotRule :=
  if b.bland then .bland
  else
    match t.rule with
    | .bland => .blockSearch
    | rule => rule

/-- The rule in force would not rather have `x` than `a`. -/
def Prefers (t : Tableau n m α) (b : Basis n m α) (a x : Fin (m + n)) : Prop :=
  match inForce t b with
  | .bland => a ≤ x
  | .firstEligible => place b a ≤ place b x
  | .bestEligible => ¬ severity t b a < severity t b x
  | .blockSearch => blockOf t b a < blockOf t b x ∨
      (blockOf t b a = blockOf t b x ∧ ¬ severity t b a < severity t b x)

end Preference

variable {t : Tableau n m α} {b : Basis n m α}

theorem violation_eq_some {a : Fin (m + n)} {v : α} :
    violation t b a = some v ↔ Eligible t b a ∧ severity t b a = v := by
  unfold violation Eligible severity
  cases b.state[a] with
  | tree => simp
  | lower => by_cases h : reducedCost t b a < -t.tolerance <;> simp [h]
  | upper => by_cases h : t.tolerance < reducedCost t b a <;> simp [h]

theorem isSome_violation_iff {a : Fin (m + n)} : (violation t b a).isSome ↔ Eligible t b a := by
  rw [Option.isSome_iff_exists]
  simp only [violation_eq_some, exists_and_left, exists_eq', and_true]

theorem violation_eq_none {a : Fin (m + n)} : violation t b a = none ↔ ¬ Eligible t b a := by
  rw [← isSome_violation_iff, Option.not_isSome_iff_eq_none]

section Places

omit [Scalar α] in
/-- The place of an arc in the cyclic order. -/
theorem getElem?_fromCursor_iff (hcursor : b.cursor < m + n) {i : Nat} {a : Fin (m + n)} :
    (fromCursor b)[i]? = some a ↔ place b a = i := by
  have ha := a.isLt
  have hall : ∀ j : Nat, (List.finRange (m + n))[j]? = some a ↔ a.val = j := by
    intro j
    rw [List.getElem?_eq_some_iff]
    constructor
    · rintro ⟨hj, rfl⟩
      simp
    · rintro rfl
      exact ⟨by simp, by simp⟩
  unfold fromCursor place
  rw [List.getElem?_append, List.length_drop, List.length_finRange]
  split
  · rw [List.getElem?_drop, hall]
    split <;> omega
  · rw [List.getElem?_take]
    split
    · rw [hall]
      split <;> omega
    · simp only [reduceCtorEq, false_iff]
      split <;> omega

omit [Scalar α] in
theorem place_lt (b : Basis n m α) (hcursor : b.cursor < m + n) (a : Fin (m + n)) :
    place b a < m + n := by
  have ha := a.isLt
  unfold place
  split <;> omega

/-- The first eligible arc from the cursor on is the first one in the cyclic order. -/
theorem prefers_of_searchFirst (hcursor : b.cursor < m + n) {a x : Fin (m + n)}
    (h : (searchFirst t b).1 = some a) (hx : Eligible t b x) : place b a ≤ place b x := by
  unfold searchFirst at h
  cases hfind : (fromCursor b).find? fun a => (violation t b a).isSome with
  | none => simp [hfind] at h
  | some y =>
      obtain rfl : y = a := by simpa [hfind] using h
      obtain ⟨-, i, hi, hget, hbefore⟩ := List.find?_eq_some_iff_getElem.mp hfind
      have hplace : place b y = i :=
        (getElem?_fromCursor_iff hcursor).mp (List.getElem?_eq_some_iff.mpr ⟨hi, hget⟩)
      by_contra hless
      obtain ⟨hj, hget⟩ := List.getElem?_eq_some_iff.mp ((getElem?_fromCursor_iff hcursor).mpr
        (rfl : place b x = place b x))
      have := hbefore (place b x) (by omega)
      rw [hget] at this
      simp [isSome_violation_iff.mpr hx] at this

end Places

section Severity

/-- The best arc so far is not less severe than `w`. -/
def Tops (best : Option (Fin (m + n) × α)) (w : α) : Prop :=
  ∃ a v, best = some (a, v) ∧ ¬ v < w

theorem better_cases {best : Option (Fin (m + n) × α)} {a x : Fin (m + n)} {v : α}
    (h : better t b best a = some (x, v)) :
    best = some (x, v) ∨ (x = a ∧ violation t b a = some v) := by
  unfold better at h
  cases hv : violation t b a with
  | none =>
      rw [hv] at h
      exact Or.inl h
  | some w =>
      rw [hv] at h
      cases best with
      | none =>
          cases h
          exact Or.inr ⟨rfl, rfl⟩
      | some y =>
          simp only at h
          split at h
          · cases h
            exact Or.inr ⟨rfl, rfl⟩
          · exact Or.inl h

variable [IsStrictOrder α (· < ·)]

/-- What the best arc tops it still tops when it is replaced, as only a more severe one replaces
it. -/
theorem Tops.better {best : Option (Fin (m + n) × α)} {w : α} (h : Tops best w)
    (a : Fin (m + n)) : Tops (better t b best a) w := by
  obtain ⟨c, u, rfl, hu⟩ := h
  unfold NetworkSimplex.better
  cases violation t b a with
  | none => exact ⟨c, u, rfl, hu⟩
  | some v =>
      simp only
      split
      · rename_i hless
        exact ⟨a, v, rfl, fun hv => hu (IsTrans.trans _ _ _ hless hv)⟩
      · exact ⟨c, u, rfl, hu⟩

/-- The better one of two arcs tops the second one. -/
theorem tops_better (best : Option (Fin (m + n) × α)) {a : Fin (m + n)} {v : α}
    (h : violation t b a = some v) : Tops (better t b best a) v := by
  unfold better
  rw [h]
  rcases best with _ | ⟨c, u⟩
  · exact ⟨a, v, rfl, irrefl v⟩
  · simp only
    split
    · exact ⟨a, v, rfl, irrefl v⟩
    · exact ⟨c, u, rfl, ‹_›⟩

/-- The most severe arc of all is found. -/
theorem prefers_of_searchBest {a x : Fin (m + n)} (h : searchBest t b = some a)
    (hx : Eligible t b x) : ¬ severity t b a < severity t b x := by
  obtain ⟨⟨y, v⟩, hfold, rfl⟩ := Option.map_eq_some_iff.mp h
  have hall := foldl_forall (better t b)
    (P := fun best => ∀ y v, best = some (y, v) → violation t b y = some v)
    (Q := fun best x => ∀ v, violation t b x = some v → Tops best v)
    (fun best a hbest y v hy => (better_cases hy).elim (hbest y v) fun ⟨hya, hv⟩ => hya ▸ hv)
    (fun best a y _ hy v hv => hy.elim (fun hya => tops_better best (hya ▸ hv))
      fun hy => (hy v hv).better a)
    (List.finRange (m + n)) (s := none) (by simp)
  obtain ⟨hright, -, htops⟩ := hall
  obtain ⟨-, hv⟩ := violation_eq_some.mp (hright y v hfold)
  obtain ⟨c, u, hcu, hu⟩ := htops x (List.mem_finRange x) _ (violation_eq_some.mpr ⟨hx, rfl⟩)
  rw [hfold] at hcu
  cases hcu
  rwa [hv]

end Severity

section Blocks

/-- What a block search knows when it has looked at the first `k` arcs from the cursor on and is in
a block: the best arc is in this block, and so are all eligible arcs so far, none of them more
severe than the best one. -/
structure Scanned (t : Tableau n m α) (b : Basis n m α) (k block : Nat)
    (best : Option (Fin (m + n) × α)) : Prop where
  found : ∀ a v, best = some (a, v) → violation t b a = some v ∧ blockOf t b a = block
  tops : ∀ x, Eligible t b x → place b x < k → blockOf t b x = block ∧ Tops best (severity t b x)

/-- The arc is in the first block with an eligible arc, and no arc of that block is more severe. -/
def BestOfFirst (t : Tableau n m α) (b : Basis n m α) (a : Fin (m + n)) : Prop :=
  ∀ x, Eligible t b x → blockOf t b a < blockOf t b x ∨
    (blockOf t b a = blockOf t b x ∧ ¬ severity t b a < severity t b x)

variable {k block : Nat} {best : Option (Fin (m + n) × α)} {a : Fin (m + n)}

/-- When a block ends without an eligible arc, there was none before. -/
theorem Scanned.next (h : Scanned t b k block none) (block' : Nat) : Scanned t b k block' none where
  found := by simp
  tops x hx hplace := by
    obtain ⟨-, a, v, hnone, -⟩ := h.tops x hx hplace
    cases hnone

/-- The best arc of a block is the choice if the arcs not looked at yet are in later blocks. -/
theorem Scanned.bestOfFirst {v : α} (h : Scanned t b k block (some (a, v)))
    (hlater : ∀ x, k ≤ place b x → block < blockOf t b x) : BestOfFirst t b a := by
  intro x hx
  obtain ⟨hviolation, rfl⟩ := h.found a v rfl
  obtain ⟨-, rfl⟩ := violation_eq_some.mp hviolation
  by_cases hplace : place b x < k
  · obtain ⟨hblock, c, u, hcu, hu⟩ := h.tops x hx hplace
    cases hcu
    exact Or.inr ⟨hblock.symm, hu⟩
  · exact Or.inl (hlater x (by omega))

/-- The places of a block are followed by those of the next one. -/
theorem block_succ (size k : Nat) :
    (k % size + 1 = size → (k + 1) / size = k / size + 1 ∧ (k + 1) % size = 0) ∧
      (k % size + 1 ≠ size → (k + 1) / size = k / size ∧ (k + 1) % size = k % size + 1) := by
  rcases Nat.eq_zero_or_pos size with rfl | hpos
  · simp
  · have hlt := Nat.mod_lt k hpos
    have hmod : (k + 1) % size = (k % size + 1) % size := (Nat.mod_add_mod k size 1).symm
    constructor
    · intro hend
      have hzero : (k + 1) % size = 0 := by rw [hmod, hend, Nat.mod_self]
      exact ⟨Nat.succ_div_of_dvd (Nat.dvd_of_mod_eq_zero hzero), hzero⟩
    · intro hend
      have hsucc : (k + 1) % size = k % size + 1 := by rw [hmod, Nat.mod_eq_of_lt (by omega)]
      refine ⟨Nat.succ_div_of_not_dvd fun hdvd => ?_, hsucc⟩
      have := Nat.mod_eq_zero_of_dvd hdvd
      omega

variable [IsStrictOrder α (· < ·)]

/-- One more arc of the block is looked at. -/
theorem Scanned.better (hcursor : b.cursor < m + n) (h : Scanned t b k block best)
    (ha : place b a = k) (hblock : blockOf t b a = block) :
    Scanned t b (k + 1) block (better t b best a) where
  found x v hx := by
    rcases better_cases hx with hx | ⟨rfl, hv⟩
    · exact h.found x v hx
    · exact ⟨hv, hblock⟩
  tops x hx hplace := by
    rcases Nat.lt_succ_iff_lt_or_eq.mp hplace with hplace | hplace
    · obtain ⟨hxblock, htops⟩ := h.tops x hx hplace
      exact ⟨hxblock, htops.better a⟩
    · -- the arc at this place is the one that is looked at
      have hxa := (getElem?_fromCursor_iff hcursor).mpr hplace
      rw [← ha, (getElem?_fromCursor_iff hcursor).mpr rfl, Option.some.injEq] at hxa
      subst hxa
      exact ⟨hblock, tops_better best (violation_eq_some.mpr ⟨hx, rfl⟩)⟩

/-- What is found from some place on, with what has been found in the block before, is the best arc
of the first block with an eligible arc. -/
theorem prefers_of_searchBlocks (hcursor : b.cursor < m + n) {rest : List (Fin (m + n))}
    (hrest : rest = (fromCursor b).drop k) (h : Scanned t b k (k / t.blockSize) best)
    (hfound : (searchBlocks t b t.blockSize rest (k % t.blockSize) best).1 = some a) :
    BestOfFirst t b a := by
  induction rest generalizing k best with
  | nil =>
      obtain ⟨⟨y, v⟩, rfl, rfl⟩ := Option.map_eq_some_iff.mp hfound
      have hall : m + n ≤ k := by
        have hlength := List.drop_eq_nil_iff.mp hrest.symm
        simp only [fromCursor, List.length_append, List.length_drop, List.length_take,
          List.length_finRange] at hlength
        omega
      refine h.bestOfFirst fun x hx => ?_
      have := place_lt b hcursor x
      omega
  | cons x rest ih =>
      have hplace : place b x = k := by
        rw [← getElem?_fromCursor_iff hcursor, ← List.head?_drop, ← hrest, List.head?_cons]
      have hrest' : rest = (fromCursor b).drop (k + 1) := by
        rw [← List.tail_drop, ← hrest, List.tail_cons]
      have hblock : blockOf t b x = k / t.blockSize := by rw [blockOf, hplace]
      have hbetter := h.better hcursor hplace hblock
      obtain ⟨hends, hgoes⟩ := block_succ t.blockSize k
      simp only [searchBlocks] at hfound
      split at hfound
      · rename_i hend
        obtain ⟨hdiv, hmod⟩ := hends hend
        cases hbest : NetworkSimplex.better t b best x with
        | none =>
            rw [hbest] at hbetter hfound
            rw [← hmod] at hfound
            exact ih hrest' (hbetter.next _) hfound
        | some y =>
            obtain ⟨y, v⟩ := y
            rw [hbest] at hbetter hfound
            obtain rfl : y = a := by simpa using hfound
            refine hbetter.bestOfFirst fun z hz => ?_
            have := Nat.div_le_div_right (c := t.blockSize) hz
            rw [blockOf]
            omega
      · rename_i hend
        obtain ⟨hdiv, hmod⟩ := hgoes hend
        rw [← hmod] at hfound
        rw [← hdiv] at hbetter
        exact ih hrest' hbetter hfound

end Blocks

section Found

/-- The cursor is put on an arc, or stays where it is. -/
theorem cursor_searchBlocks {size scanned : Nat} {rest : List (Fin (m + n))}
    {best : Option (Fin (m + n) × α)} : (searchBlocks t b size rest scanned best).2 = b.cursor ∨
      ∃ a : Fin (m + n), (searchBlocks t b size rest scanned best).2 = after a := by
  induction rest generalizing scanned best with
  | nil => exact Or.inl rfl
  | cons x rest ih =>
      simp only [searchBlocks]
      split
      · cases NetworkSimplex.better t b best x with
        | none => exact ih
        | some y => exact Or.inr ⟨x, rfl⟩
      · exact ih

theorem cursor_findEntering :
    (findEntering t b).2 = b.cursor ∨ ∃ a : Fin (m + n), (findEntering t b).2 = after a := by
  unfold findEntering
  split
  · exact Or.inl rfl
  · cases t.rule with
    | firstEligible =>
        show (searchFirst t b).2 = b.cursor ∨ _
        unfold searchFirst
        cases (fromCursor b).find? fun a => (violation t b a).isSome with
        | none => exact Or.inl rfl
        | some x => exact Or.inr ⟨x, rfl⟩
    | bestEligible => exact Or.inl rfl
    | blockSearch => exact cursor_searchBlocks
    | bland => exact cursor_searchBlocks

theorem cursor_findEntering_lt (hcursor : b.cursor < m + n) : (findEntering t b).2 < m + n := by
  rcases cursor_findEntering (t := t) (b := b) with h | ⟨a, h⟩
  · rwa [h]
  · rw [h]
    exact Nat.mod_lt _ (by omega)

/-- What is found is preferred to all eligible arcs. -/
theorem prefers_of_findEntering [IsStrictOrder α (· < ·)] (hcursor : b.cursor < m + n)
    {a x : Fin (m + n)} (h : (findEntering t b).1 = some a) (hx : Eligible t b x) :
    Prefers t b a x := by
  have hstart : Scanned t b 0 (0 / t.blockSize) none := ⟨by simp, by simp⟩
  have hblocks : (searchBlocks t b t.blockSize (fromCursor b) 0 none).1 = some a →
      BestOfFirst t b a := fun hfound =>
    prefers_of_searchBlocks hcursor List.drop_zero.symm hstart (by rwa [Nat.zero_mod])
  unfold Prefers inForce
  by_cases hbland : b.bland = true
  · rw [if_pos hbland]
    exact le_of_findEntering hbland h (isSome_violation_iff.mpr hx)
  · rw [if_neg hbland]
    rw [findEntering, if_neg hbland] at h
    cases hrule : t.rule with
    | firstEligible =>
        rw [hrule] at h
        exact prefers_of_searchFirst hcursor h hx
    | bestEligible =>
        rw [hrule] at h
        exact prefers_of_searchBest h hx
    | blockSearch =>
        rw [hrule] at h
        exact hblocks h x hx
    | bland =>
        rw [hrule] at h
        exact hblocks h x hx

/-- In every basis with an arc, wherever the cursor is and whatever flow, tree and potentials are:

* an entering arc is found exactly if an arc is eligible;
* it is eligible then, and the rule in force would not rather have any other eligible arc;
* the cursor is on an arc again. -/
theorem findEntering_chooses [IsStrictOrder α (· < ·)] (t : Tableau n m α) (b : Basis n m α)
    (hcursor : b.cursor < m + n) :
    ((findEntering t b).1 = none ↔ ∀ a, ¬ Eligible t b a) ∧
      (∀ a, (findEntering t b).1 = some a →
        Eligible t b a ∧ ∀ x, Eligible t b x → Prefers t b a x) ∧
      (findEntering t b).2 < m + n := by
  refine ⟨?_, fun a h => ?_, cursor_findEntering_lt hcursor⟩
  · simp only [findEntering_eq_none, violation_eq_none]
  · exact ⟨isSome_violation_iff.mp (isSome_of_findEntering h),
      fun x hx => prefers_of_findEntering hcursor h hx⟩

/-- `carousel` with a search in blocks of two arcs. -/
def blocks : Tableau 2 3 Int :=
  { Configuration.carouselTableau with rule := .blockSearch, blockSize := 2 }

/-- The tree of artificial arcs, with the cursor on the first one of them. -/
def blocksBasis : Basis 2 3 Int := { Configuration.carouselStart with bland := false, cursor := 3 }

/-- The blocks are the two artificial arcs, the first and the second arc, and the third arc, alone.
All three arcs are eligible. The second one is found, which is more severe than the first one, and
the cursor is put after it. -/
theorem findEntering_chooses_blocks :
    letI := ExactCosts.ofWidth .bits128
    findEntering blocks blocksBasis = (some 1, 2) ∧
      severity blocks blocksBasis 0 < severity blocks blocksBasis 1 ∧
      ∀ x, Eligible blocks blocksBasis x → Prefers blocks blocksBasis 1 x := by
  let _ := ExactCosts.ofWidth .bits128
  have hfound : findEntering blocks blocksBasis = (some 1, 2) := by decide
  have hchoice := (findEntering_chooses blocks blocksBasis (by decide)).2.1 1 (by rw [hfound])
  exact ⟨hfound, by decide, hchoice.2⟩

end Found

section InForce

/-- Refreshing depths and potentials leaves the rule alone. -/
theorem bland_refresh (t : Tableau n m α) (b : Basis n m α) (count : Nat) (layer : List (Fin n)) :
    (Basis.refresh t b count layer).bland = b.bland := by
  induction count generalizing b layer with
  | zero => rfl
  | succ count ih =>
      cases layer with
      | nil => rfl
      | cons v rest =>
          have hfold : ∀ (layer : List (Fin n)) (b : Basis n m α),
              (layer.foldl (Basis.settle t) b).bland = b.bland := by
            intro layer
            induction layer with
            | nil => exact fun b => rfl
            | cons v rest ih => exact fun b => ih (Basis.settle t b v)
          exact (ih _ _).trans (hfold (v :: rest) b)

/-- A pivot leaves the rule alone. -/
theorem Enters.bland_eq {supply : Table Int n} {b' : Basis n m α} {a : Fin (m + n)}
    (hc : Consistent t supply b) (h : Enters t b a b') : b'.bland = b.bland := by
  rw [h.eq_pivoted hc]
  exact (pivoted_spec (hc.with_cursor (findEntering t b).2) h.state_ne_tree).bland_eq

/-- Once it is chosen, the rule that cannot cycle is in force in every basis that pivots lead to. -/
theorem inForce_of_visited {p : Problem n m α} {dear : α} (hp : p.amounts.Prepared)
    (h : Visited (Tableau.ofProblem p .bland dear) p b) :
    inForce (Tableau.ofProblem p .bland dear) b = .bland := by
  have hbland : b.bland = true := by
    induction h with
    | start => exact bland_refresh _ _ _ _
    | step h henters ih => exact (henters.bland_eq (h.consistent hp)).trans ih
    | adopt _ _ => rfl
  rw [inForce, if_pos hbland]

end InForce

end NetworkFlow.NetworkSimplex
