import NetworkFlow.Decimal.Power

/-!
# Doubles as exact numbers

A finite double is `mantissa · 2 ^ exponent` with a sign. `Binary64.decode` takes its
bits apart; `Binary64.ofRatio` is the double nearest to a quotient of natural
numbers, where a quotient halfway between two doubles goes to the one with the even
mantissa.
-/

namespace NetworkFlow.Binary64

open Decimal

/-- What the bits of a double stand for. -/
inductive Decoded where
  | nan
  | infinite (negative : Bool)
  /-- The number `mantissa · 2 ^ exponent`. `sparse` tells that the next smaller
  double is only half as far away as the next larger one. -/
  | finite (negative : Bool) (mantissa : Nat) (exponent : Int) (sparse : Bool)
  deriving DecidableEq, Repr

/-- The number of bits of a fraction. -/
def fractionBits : Nat := 52

/-- The value of the sign bit. -/
def signBit : Nat := powerOfTwo 63

/-- The value of the bit that is not stored: it is set in all but the smallest doubles. -/
def hiddenBit : Nat := powerOfTwo fractionBits

/-- The exponent of the smallest double. -/
def leastExponent : Int := -1074

/-- The biased exponent of infinities and of what is no number. -/
def specialExponent : Nat := 2047

/-- Takes the bits of a double apart. -/
def decode (bits : UInt64) : Decoded :=
  let negative := signBit ≤ bits.toNat
  let biased := bits.toNat / hiddenBit % 2048
  let fraction := bits.toNat % hiddenBit
  if biased = specialExponent then
    if fraction = 0 then .infinite negative else .nan
  else if biased = 0 then .finite negative fraction leastExponent false
  else
    .finite negative (hiddenBit + fraction) (leastExponent + (biased - 1 : Nat))
      (fraction = 0 ∧ 1 < biased)

/-- The quotient rounded to a whole number, halves to the even one. -/
def roundHalfEven (num den : Nat) : Nat :=
  let q := num / den
  let twice := 2 * (num % den)
  if den < twice ∨ (twice = den ∧ q % 2 = 1) then q + 1 else q

/-- Numerator and denominator of `num / den / 2 ^ e`. -/
def scaled (num den : Nat) (e : Int) : Nat × Nat :=
  if 0 ≤ e then (num, den * powerOfTwo e.toNat) else (num * powerOfTwo (-e).toNat, den)

/-- The bits of the infinity. -/
def infinityBits : Nat := specialExponent * hiddenBit

/-- The bits of the double nearest to a positive quotient. -/
def ratioBits (num den : Nat) : Nat :=
  let guess : Int := max ((Nat.log2 num : Int) - Nat.log2 den - 53) leastExponent
  let (a, b) := scaled num den guess
  let e := if 2 * hiddenBit ≤ a / b then guess + 1 else guess
  let (a, b) := scaled num den e
  let m := roundHalfEven a b
  if m < hiddenBit then m
  else
    let bits := (e - leastExponent + 1).toNat * hiddenBit + (m - hiddenBit)
    min bits infinityBits

/-- The double nearest to a quotient with a sign. -/
def ofRatio (negative : Bool) (num den : Nat) : Float :=
  let bits := if num = 0 then 0 else ratioBits num den
  Float.ofBits (UInt64.ofNat (if negative then signBit + bits else bits))

end NetworkFlow.Binary64
