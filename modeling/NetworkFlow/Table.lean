/-!
# Tables

A `Table α n` holds a value for each number below `n`. Whoever has a number of the
type `Fin n` reads and writes without a bound to check, so nothing in the engines can
go wrong for an index; `xs[i]` needs no proof.

Main results: `ext`, two tables are equal if they read the same everywhere;
`getElem_set`, a write changes one entry; what the tables that are made by
`ofFn`, `const`, `map` and `++` read as; and `map_const`, `map_set`, images of tables.
-/

namespace NetworkFlow

/-- A value for each number below `n`. -/
structure Table (α : Type) (n : Nat) where
  entries : Vector α n
  deriving DecidableEq

namespace Table

variable {α β : Type} {m n : Nat}

/-- The value of a number. -/
@[inline] def get (xs : Table α n) (i : Fin n) : α := xs.entries.get i

instance : GetElem (Table α n) (Fin n) α fun _ _ => True where
  getElem xs i _ := xs.get i

/-- Gives a number another value. -/
@[inline] def set (xs : Table α n) (i : Fin n) (x : α) : Table α n := ⟨xs.entries.set i x i.isLt⟩

/-- The table that reads as `f`. -/
@[inline] def ofFn (f : Fin n → α) : Table α n := ⟨.ofFn f⟩

/-- The table that reads the same everywhere. -/
@[inline] def const (n : Nat) (x : α) : Table α n := ⟨.replicate n x⟩

/-- The entries of an array. -/
@[inline] def ofArray (xs : Array α) : Table α xs.size := ⟨xs.toVector⟩

/-- The table of the images of the values. -/
@[inline] def map (f : α → β) (xs : Table α n) : Table β n := ⟨xs.entries.map f⟩

/-- The values of the first table, then those of the second one. -/
@[inline] def append (xs : Table α m) (ys : Table α n) : Table α (m + n) :=
  ⟨xs.entries ++ ys.entries⟩

instance : HAppend (Table α m) (Table α n) (Table α (m + n)) := ⟨append⟩

/-- The values in order. -/
@[inline] def toList (xs : Table α n) : List α := xs.entries.toList

/-- The table of the images under a function that may fail, if it fails for none. -/
@[inline] def mapM {ε : Type} (f : α → Except ε β) (xs : Table α n) : Except ε (Table β n) :=
  (xs.entries.mapM f).map Table.mk

theorem getElem_eq (xs : Table α n) (i : Fin n) : xs[i] = xs.entries[i.val] := rfl

theorem getElem_set (xs : Table α n) (i j : Fin n) (x : α) :
    (xs.set i x)[j] = if i = j then x else xs[j] := by
  simp only [getElem_eq, set, Vector.getElem_set, Fin.ext_iff]

@[simp] theorem getElem_set_self (xs : Table α n) (i : Fin n) (x : α) : (xs.set i x)[i] = x := by
  simp [getElem_set]

theorem getElem_set_of_ne (xs : Table α n) {i j : Fin n} (x : α) (h : i ≠ j) :
    (xs.set i x)[j] = xs[j] := by
  simp [getElem_set, h]

@[simp] theorem getElem_ofFn (f : Fin n → α) (i : Fin n) : (ofFn f)[i] = f i := by
  simp [getElem_eq, ofFn]

@[simp] theorem getElem_const (x : α) (i : Fin n) : (const n x)[i] = x := by
  simp [getElem_eq, const]

@[simp] theorem getElem_map (f : α → β) (xs : Table α n) (i : Fin n) :
    (xs.map f)[i] = f xs[i] := by
  simp [getElem_eq, map]

@[simp] theorem getElem_append_castAdd (xs : Table α m) (ys : Table α n) (i : Fin m) :
    (xs ++ ys)[Fin.castAdd n i] = xs[i] := by
  have h : i.val < m := i.isLt
  show (xs.entries ++ ys.entries)[i.val] = xs.entries[i.val]
  simp [h]

@[simp] theorem getElem_append_natAdd (xs : Table α m) (ys : Table α n) (i : Fin n) :
    (xs ++ ys)[Fin.natAdd m i] = ys[i] := by
  show (xs.entries ++ ys.entries)[m + i.val] = ys.entries[i.val]
  simp

@[ext] theorem ext {xs ys : Table α n} (h : ∀ i : Fin n, xs[i] = ys[i]) : xs = ys := by
  obtain ⟨xs⟩ := xs
  obtain ⟨ys⟩ := ys
  congr 1
  exact Vector.ext fun i hi => h ⟨i, hi⟩

theorem map_const (f : α → β) (x : α) : (const n x).map f = const n (f x) := by
  ext i
  simp

theorem map_set (f : α → β) (xs : Table α n) (i : Fin n) (x : α) :
    (xs.set i x).map f = (xs.map f).set i (f x) := by
  ext j
  simp only [getElem_map, getElem_set]
  split <;> rfl

end Table

end NetworkFlow
