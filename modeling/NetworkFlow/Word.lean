/-!
# Signed integers of fixed width

A `Word w` is an integer that fits the width `w`. There are three ways back from
the integers when a result does not fit: `Word.wrap` takes the residue, as
unchecked machine arithmetic does; `Word.clamp` takes the nearest end of the
range, as narrowing a value does; `Word.ofInt?` has no result, as checked
arithmetic does. On an integer that fits, all three agree with it.

Main results: `wrap_of_fits`, `clamp_of_fits`, `ofInt?_of_fits`.
-/

namespace NetworkFlow

/-- One more than the largest count: counts are 64-bit numbers without sign. -/
def unsignedBound : Nat := 18446744073709551616

/-- The widths of signed integers. -/
inductive Width where
  | bits32
  | bits64
  | bits128
  deriving DecidableEq, Repr

namespace Width

/-- Half the number of values: the range of a width is `-half ≤ x < half`. -/
def half : Width → Nat
  | bits32 => 2147483648
  | bits64 => 9223372036854775808
  | bits128 => 170141183460469231731687303715884105728

/-- The integer `x` is in the range of the width. -/
def Fits (w : Width) (x : Int) : Prop := -(w.half : Int) ≤ x ∧ x < w.half

instance (w : Width) (x : Int) : Decidable (w.Fits x) :=
  inferInstanceAs (Decidable (_ ∧ _))

/-- The width in which the engines compute with values of the width `w`. -/
def wider : Width → Width
  | bits32 => bits64
  | bits64 => bits128
  | bits128 => bits128

theorem half_pos (w : Width) : 0 < w.half := by
  cases w <;> decide

theorem half_le_wider (w : Width) : w.half ≤ w.wider.half := by
  cases w <;> decide

theorem fits_zero (w : Width) : w.Fits 0 := by
  have := w.half_pos
  constructor <;> omega

theorem fits_one (w : Width) : w.Fits 1 := by
  cases w <;> decide

theorem fits_neg_one (w : Width) : w.Fits (-1) := by
  cases w <;> decide

theorem fits_wider {w : Width} {x : Int} (h : w.Fits x) : w.wider.Fits x := by
  have := w.half_le_wider
  obtain ⟨_, _⟩ := h
  constructor <;> omega

/-- The residue of an integer in the range of the width. -/
def residue (w : Width) (x : Int) : Int := x.bmod (2 * w.half)

theorem fits_residue (w : Width) (x : Int) : w.Fits (w.residue x) := by
  have hpos : 0 < 2 * w.half := by have := w.half_pos; omega
  have h₁ := Int.le_bmod (x := x) hpos
  have h₂ := Int.bmod_lt (x := x) hpos
  unfold residue
  constructor <;> omega

theorem residue_of_fits {w : Width} {x : Int} (h : w.Fits x) : w.residue x = x := by
  obtain ⟨_, _⟩ := h
  have := w.half_pos
  exact Int.bmod_eq_of_le_mul_two (by omega) (by omega)

end Width

/-- An integer in the range of a width. -/
structure Word (w : Width) where
  val : Int
  fits : w.Fits val
  deriving DecidableEq

namespace Word

variable {w : Width}

@[ext] theorem ext {a b : Word w} (h : a.val = b.val) : a = b := by
  cases a
  cases b
  cases h
  rfl

instance : Inhabited (Word w) := ⟨⟨0, w.fits_zero⟩⟩

/-- The largest value of a width. -/
def largest (w : Width) : Word w :=
  ⟨w.half - 1, by have := w.half_pos; constructor <;> omega⟩

/-- The smallest value of a width. -/
def smallest (w : Width) : Word w :=
  ⟨-w.half, by have := w.half_pos; constructor <;> omega⟩

/-- The value congruent to `x`. -/
def wrap (x : Int) : Word w :=
  if h : w.Fits x then ⟨x, h⟩ else ⟨w.residue x, w.fits_residue x⟩

/-- The value nearest to `x`. -/
def clamp (x : Int) : Word w :=
  if h : w.Fits x then ⟨x, h⟩ else if x < 0 then smallest w else largest w

/-- The value `x`, if it fits. -/
def ofInt? (x : Int) : Option (Word w) :=
  if h : w.Fits x then some ⟨x, h⟩ else none

theorem wrap_of_fits {x : Int} (h : w.Fits x) : wrap x = (⟨x, h⟩ : Word w) := by
  simp [wrap, h]

theorem clamp_of_fits {x : Int} (h : w.Fits x) : clamp x = (⟨x, h⟩ : Word w) := by
  simp [clamp, h]

theorem ofInt?_of_fits {x : Int} (h : w.Fits x) : ofInt? x = some (⟨x, h⟩ : Word w) := by
  simp [ofInt?, h]

theorem ofInt?_eq_some {x : Int} {y : Word w} : ofInt? x = some y ↔ y.val = x := by
  constructor
  · intro h
    unfold ofInt? at h
    split at h <;> cases h
    rfl
  · rintro rfl
    exact ofInt?_of_fits y.fits

/-- The same integer in the width the engines compute in. -/
def widen (x : Word w) : Word w.wider := ⟨x.val, Width.fits_wider x.fits⟩

end Word

end NetworkFlow
