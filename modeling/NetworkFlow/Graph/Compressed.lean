import NetworkFlow.Table

/-!
# Grouping items into slices

`Compressed.ofList row items` sorts items by the row that `row` names and keeps them in one array,
row after row, together with the places where the rows begin. It is a counting sort: the items of
each row are counted, the counts are added up to the places, and then every item goes to the next
free place of its row. So the items of a row stay in the order of the list.

Main results: `getElem_first`, a row begins after the items of the rows before it;
`Placed.next_lt_size`, no item is put outside of the array; `getElem_ofList`, row `v` holds exactly
the items of `v`, in order.
-/

namespace NetworkFlow

/-- Items in `n` rows, one row after the other. -/
structure Compressed (n : Nat) (ι : Type) where
  /-- Where each row begins, and where the last one ends. -/
  first : Table Nat (n + 1)
  items : Array ι

namespace Compressed

variable {n : Nat} {ι : Type}

/-- The slice of a row. -/
instance : GetElem (Compressed n ι) (Fin n) (Array ι) fun _ _ => True where
  getElem rows v _ := rows.items.extract rows.first[v.castSucc] rows.first[v.succ]

/-- The number of items of each row, at the number after that of the row. -/
def counts (row : ι → Fin n) (items : List ι) : Table Nat (n + 1) :=
  items.foldl (fun counts item => counts.set (row item).succ (counts[(row item).succ] + 1))
    (.const (n + 1) 0)

/-- Adds to each entry the ones before it. -/
def addUp (counts : Table Nat (n + 1)) : Table Nat (n + 1) :=
  (List.finRange n).foldl (fun sums v => sums.set v.succ (sums[v.succ] + sums[v.castSucc])) counts

/-- Puts an item at the next free place of its row, which is then the place after it. -/
def place (row : ι → Fin n) (state : Table Nat (n + 1) × Array ι) (item : ι) :
    Table Nat (n + 1) × Array ι :=
  let (next, placed) := state
  let v := (row item).castSucc
  (next.set v (next[v] + 1), placed.setIfInBounds next[v] item)

/-- The items of a list, sorted by `row`. The array begins as the list, and everything in it is
replaced. -/
def ofList (row : ι → Fin n) (items : List ι) : Compressed n ι :=
  let first := addUp (counts row items)
  { first, items := (items.foldl (place row) (first, items.toArray)).2 }

/-! ## Where the rows begin -/

/-- The number of items in the rows before a number. -/
def before (row : ι → Fin n) (items : List ι) (k : Nat) : Nat :=
  items.countP fun item => (row item).val < k

/-- The items of a row, in their order. -/
def ofRow (row : ι → Fin n) (items : List ι) (v : Fin n) : List ι := items.filter (row · = v)

variable (row : ι → Fin n) (items : List ι)

theorem before_zero : before row items 0 = 0 := by
  simp [before]

theorem before_succ (v : Fin n) :
    before row items (v + 1) = before row items v + (ofRow row items v).length := by
  induction items with
  | nil => rfl
  | cons item items ih =>
      simp only [before, ofRow, List.countP_cons, List.filter_cons, decide_eq_true_eq] at ih ⊢
      by_cases hrow : row item = v
      · have hval : (row item).val = v.val := congrArg Fin.val hrow
        rw [if_pos hrow, if_pos (by omega), if_neg (by omega), List.length_cons, ih]
        omega
      · have hval : (row item).val ≠ v.val := Fin.val_ne_of_ne hrow
        rw [if_neg hrow, ih]
        split <;> split <;> omega

theorem before_mono {k l : Nat} (h : k ≤ l) : before row items k ≤ before row items l := by
  refine List.countP_mono_left fun item _ hitem => ?_
  simp only [decide_eq_true_eq] at hitem ⊢
  omega

theorem before_le_length (k : Nat) : before row items k ≤ items.length :=
  List.countP_le_length

theorem getElem_foldl_counts (counts : Table Nat (n + 1)) (k : Fin (n + 1)) :
    (items.foldl (fun counts item => counts.set (row item).succ (counts[(row item).succ] + 1))
      counts)[k] = counts[k] + items.countP fun item => (row item).succ = k := by
  induction items generalizing counts with
  | nil => rfl
  | cons item items ih =>
      rw [List.foldl_cons, ih, Table.getElem_set, List.countP_cons]
      by_cases hk : (row item).succ = k
      · subst hk
        simp
        omega
      · simp [hk]

theorem getElem_counts_zero : (counts row items)[(0 : Fin (n + 1))] = 0 := by
  rw [counts, getElem_foldl_counts]
  simp [Fin.succ_ne_zero]

theorem getElem_counts_succ (v : Fin n) :
    (counts row items)[v.succ] = (ofRow row items v).length := by
  rw [counts, getElem_foldl_counts, ofRow, ← List.countP_eq_length_filter]
  simp [Fin.succ_inj]

/-- When the first `k` rows are added up, the entries up to the `k`-th are places. -/
theorem getElem_take_addUp {k : Nat} (hk : k ≤ n) (j : Fin (n + 1)) :
    (((List.finRange n).take k).foldl
      (fun sums v => sums.set v.succ (sums[v.succ] + sums[v.castSucc])) (counts row items))[j] =
        if j.val ≤ k then before row items j else (counts row items)[j] := by
  induction k generalizing j with
  | zero =>
      by_cases hj : j.val ≤ 0
      · obtain rfl : j = 0 := Fin.ext (by simpa using hj)
        simp [before_zero, getElem_counts_zero]
      · simp [hj]
  | succ k ih =>
      have hlength : k < (List.finRange n).length := by rwa [List.length_finRange]
      have hrow : (List.finRange n)[k] = ⟨k, hk⟩ := List.getElem_finRange _
      rw [List.take_succ_eq_append_getElem hlength, List.foldl_append, hrow]
      simp only [List.foldl_cons, List.foldl_nil, Table.getElem_set]
      have ih := ih (by omega)
      by_cases hj : (Fin.succ ⟨k, hk⟩ : Fin (n + 1)) = j
      · subst hj
        have hlast := ih (Fin.succ ⟨k, hk⟩)
        rw [if_neg (by simp)] at hlast
        have hbefore := ih (Fin.castSucc ⟨k, hk⟩)
        rw [if_pos (by simp)] at hbefore
        rw [if_pos rfl, if_pos (by simp), hlast, hbefore, getElem_counts_succ]
        have hsucc := before_succ row items ⟨k, hk⟩
        simp only [Fin.val_castSucc, Fin.val_succ] at *
        omega
      · have hne : j.val ≠ k + 1 := fun h => hj (Fin.ext h.symm)
        rw [if_neg hj, ih]
        by_cases hle : j.val ≤ k
        · rw [if_pos hle, if_pos (by omega)]
        · rw [if_neg hle, if_neg (by omega)]

/-- A row begins after the items of the rows before it. -/
theorem getElem_first (k : Fin (n + 1)) : (ofList row items).first[k] = before row items k := by
  have hall : (List.finRange n).take n = List.finRange n := List.take_of_length_le (by simp)
  have hplaces := getElem_take_addUp row items (Nat.le_refl n) k
  rw [hall, if_pos (by omega)] at hplaces
  exact hplaces

/-- No place is beyond the number of the items. -/
theorem getElem_first_le (k : Fin (n + 1)) : (ofList row items).first[k] ≤ items.length :=
  getElem_first row items k ▸ before_le_length row items k

/-! ## Where the items go -/

/-- What the array holds when some of the items have been put into it: each of them is at the place
that its row has for it, and the next free place of a row is after them. -/
structure Placed (placed : List ι) (state : Table Nat (n + 1) × Array ι) : Prop where
  next_eq : ∀ v : Fin n,
    state.1[v.castSucc] = before row items v + (ofRow row placed v).length
  size_eq : state.2.size = items.length
  getElem_eq : ∀ (v : Fin n) (i : Nat) (item : ι), (ofRow row placed v)[i]? = some item →
    state.2[before row items v + i]? = some item

variable {row items} {placed rest : List ι} {item : ι} {state : Table Nat (n + 1) × Array ι}

theorem length_ofRow_append (v : Fin n) : (ofRow row (placed ++ rest) v).length =
    (ofRow row placed v).length + (ofRow row rest v).length := by
  simp [ofRow]

/-- The next free place of the row of an item that is still to be placed is in the array, and before
the next row. -/
theorem Placed.next_lt (h : Placed row items placed state) (hitems : items = placed ++ item :: rest) :
    state.1[(row item).castSucc] < before row items (row item + 1) := by
  have hlength : (ofRow row items (row item)).length =
      (ofRow row placed (row item)).length + (ofRow row (item :: rest) (row item)).length := by
    rw [hitems, length_ofRow_append]
  have hpos : 0 < (ofRow row (item :: rest) (row item)).length := by simp [ofRow]
  rw [h.next_eq, before_succ]
  omega

/-- No item is put outside of the array. -/
theorem Placed.next_lt_size (h : Placed row items placed state)
    (hitems : items = placed ++ item :: rest) : state.1[(row item).castSucc] < state.2.size :=
  h.size_eq ▸ Nat.lt_of_lt_of_le (h.next_lt hitems) (before_le_length row items _)

/-- The places of a row are not those of another one. -/
theorem ne_before_add {u v : Fin n} {place i : Nat} (huv : u ≠ v) (hle : before row items u ≤ place)
    (hlt : place < before row items (u + 1)) (hi : i < (ofRow row items v).length) :
    place ≠ before row items v + i := by
  have hrow := before_succ row items v
  rcases Nat.lt_or_gt_of_ne (Fin.val_ne_of_ne huv) with h | h
  · have := before_mono row items (show u.val + 1 ≤ v from h)
    omega
  · have := before_mono row items (show v.val + 1 ≤ u from h)
    omega

/-- An item is put at a place where none has been put before. -/
theorem Placed.place (h : Placed row items placed state) (hitems : items = placed ++ item :: rest) :
    Placed row items (placed ++ [item]) (place row state item) := by
  have hone : ∀ v, ofRow row (placed ++ [item]) v =
      if row item = v then ofRow row placed v ++ [item] else ofRow row placed v := by
    intro v
    by_cases hrow : row item = v <;> simp [ofRow, hrow]
  constructor
  · intro v
    show (state.1.set _ _)[v.castSucc] = _
    rw [Table.getElem_set, hone]
    by_cases hrow : row item = v
    · subst hrow
      rw [if_pos rfl, if_pos rfl, h.next_eq, List.length_append]
      rfl
    · rw [if_neg fun hcast => hrow (Fin.castSucc_inj.mp hcast), if_neg hrow, h.next_eq]
  · show (state.2.setIfInBounds _ _).size = _
    rw [Array.size_setIfInBounds, h.size_eq]
  · intro v i other hother
    have hnext := h.next_eq (row item)
    have hearlier : ∀ {j : Nat}, (ofRow row placed v)[j]? = some other →
        state.1[(row item).castSucc] ≠ before row items v + j →
          (state.2.setIfInBounds state.1[(row item).castSucc] item)[before row items v + j]? =
            some other := by
      intro j hj hne
      rw [Array.getElem?_setIfInBounds_ne hne]
      exact h.getElem_eq v j other hj
    show (state.2.setIfInBounds state.1[(row item).castSucc] item)[before row items v + i]? = _
    rw [hone] at hother
    by_cases hrow : row item = v
    · subst hrow
      rw [if_pos rfl] at hother
      rcases Nat.lt_or_ge i (ofRow row placed (row item)).length with hi | hi
      · rw [List.getElem?_append_left hi] at hother
        exact hearlier hother (by omega)
      · rw [List.getElem?_append_right hi, List.getElem?_singleton] at hother
        split at hother
        · rename_i hlast
          cases hother
          obtain rfl : i = (ofRow row placed (row item)).length := by omega
          rw [← hnext]
          exact Array.getElem?_setIfInBounds_self_of_lt (h.next_lt_size hitems)
        · cases hother
    · rw [if_neg hrow] at hother
      refine hearlier hother (ne_before_add hrow (by omega) (h.next_lt hitems) ?_)
      have hi := (List.getElem?_eq_some_iff.mp hother).1
      rw [hitems, length_ofRow_append]
      omega

/-- All items are put at their places. -/
theorem placed_foldl (h : Placed row items placed state) (hitems : items = placed ++ rest) :
    Placed row items items (rest.foldl (Compressed.place row) state) := by
  induction rest generalizing placed state with
  | nil =>
      rw [List.append_nil] at hitems
      exact hitems ▸ h
  | cons item rest ih => exact ih (h.place hitems) (by simpa using hitems)

/-- Before the first item is placed, every row has all its places free. -/
theorem placed_nil : Placed row items [] ((ofList row items).first, items.toArray) where
  next_eq v := by simp [getElem_first, ofRow]
  size_eq := by simp
  getElem_eq v i item h := by simp [ofRow] at h

/-- Row `v` holds the items of `v`, in their order. -/
theorem getElem_ofList (row : ι → Fin n) (items : List ι) (v : Fin n) :
    (ofList row items)[v].toList = items.filter (row · = v) := by
  have hplaced : Placed row items items
      (items.foldl (place row) ((ofList row items).first, items.toArray)) :=
    placed_foldl placed_nil rfl
  have hrow : (ofList row items)[v] = (ofList row items).items.extract
      (ofList row items).first[v.castSucc] (ofList row items).first[v.succ] := rfl
  have hsucc := before_succ row items v
  have hle := before_le_length row items (v + 1)
  have hsize : (ofList row items).items.size = items.length := hplaced.size_eq
  rw [hrow, getElem_first, getElem_first]
  apply List.ext_getElem?
  intro i
  rw [Array.getElem?_toList, Array.getElem?_extract, hsize]
  show _ = (ofRow row items v)[i]?
  simp only [Fin.val_castSucc, Fin.val_succ]
  split
  · rename_i hi
    have hi : i < (ofRow row items v).length := by omega
    rw [List.getElem?_eq_getElem hi]
    exact hplaced.getElem_eq v i _ (List.getElem?_eq_getElem hi)
  · rw [List.getElem?_eq_none (by omega)]

end Compressed

end NetworkFlow
