import NetworkFlow.Error
import NetworkFlow.Word

/-!
# Amounts of flow

Supplies, bounds and flows are counted in 64-bit integers. The library keeps an
amount as an integer and says where the width matters: a sum that could leave
the range is `checked`, and a value of the caller's flow type is read by
`ofWord` and written by `toWord`, both saturating.

The caller's flow type has a largest value; as an upper bound it means that the
arc has no capacity at all (`capacity?`).
-/

namespace NetworkFlow

namespace Amount

/-- The largest amount. -/
def largest : Int := 9223372036854775807

/-- The most that the engines may gather at one node: two such amounts can still
be added. -/
def loadLimit : Int := largest / 4

/-- The integer `x` as an amount, if it is one. -/
def checked (x : Int) : Except Error Int :=
  if Width.bits64.Fits x then .ok x else .error .arithmeticOverflow

theorem checked_eq_ok {x y : Int} : checked x = .ok y ↔ Width.bits64.Fits x ∧ x = y := by
  unfold checked
  split <;> simp [*]

/-- Only what is out of range is refused. -/
theorem checked_eq_error {x : Int} {cause : Error} (h : checked x = .error cause) :
    cause = .arithmeticOverflow := by
  unfold checked at h
  split at h <;> cases h
  rfl

/-- The sum of amounts, which need not be an amount. -/
def sum (xs : List Int) : Int := xs.foldr (· + ·) 0

/-- The amount that a value of the caller's flow type stands for. -/
def ofWord {w : Width} (x : Word w) : Int := (Word.clamp x.val : Word .bits64).val

/-- The value of the caller's flow type nearest to an amount. -/
def toWord {w : Width} (x : Int) : Word w := Word.clamp x

/-- The capacity that an upper bound of the caller's flow type stands for; the
largest value of the type is no bound. -/
def capacity? {w : Width} (x : Word w) : Option Int :=
  if x = Word.largest w then none else some (ofWord x)

end Amount

end NetworkFlow
