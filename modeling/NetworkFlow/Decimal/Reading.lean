import NetworkFlow.Decimal.Binary64
import NetworkFlow.Word

/-!
# Reading numbers

Whole numbers are read in two notations: digits with an optional sign, or `0x` and
hexadecimal digits. Doubles are read from decimals with an optional fraction and
exponent, at least one digit before the exponent, and from the words `inf`,
`infinity` and `nan` in any case, all with an optional sign. There is no room for
blanks anywhere.
-/

namespace NetworkFlow.Decimal

/-- The value of a digit. -/
def digitValue? (c : Char) : Option Nat :=
  if '0' ≤ c ∧ c ≤ '9' then some (c.toNat - '0'.toNat)
  else if 'a' ≤ c ∧ c ≤ 'f' then some (c.toNat - 'a'.toNat + 10)
  else if 'A' ≤ c ∧ c ≤ 'F' then some (c.toNat - 'A'.toNat + 10)
  else none

/-- The value of a digit below a base of at most sixteen. -/
def digitBelow? (base : Nat) (c : Char) : Option Nat :=
  (digitValue? c).filter (· < base)

/-- The number written by digits, at least one of them. -/
def digits? (base : Nat) (cs : List Char) : Option Nat :=
  if cs.isEmpty then none
  else cs.foldlM (fun n c => (digitBelow? base c).map (base * n + ·)) 0

/-- Splits an optional sign off; the flag tells that it is a minus. -/
def splitSign : List Char → Bool × List Char
  | '-' :: rest => (true, rest)
  | '+' :: rest => (false, rest)
  | cs => (false, cs)

/-- The whole number written by digits with an optional sign. -/
def signed? (base : Nat) (cs : List Char) : Option Int :=
  let (negative, rest) := splitSign cs
  (digits? base rest).map fun n => if negative then -(n : Int) else n

/-- The whole number written by digits, with no sign but an optional plus. -/
def unsigned? (base : Nat) : List Char → Option Nat
  | '+' :: rest => digits? base rest
  | cs => digits? base cs

/-- Splits the mark of hexadecimal notation off; the result is a base and what is left. -/
def splitBase : List Char → Nat × List Char
  | '0' :: 'x' :: rest => (16, rest)
  | cs => (10, cs)

/-- A 64-bit number without sign, in either notation. -/
def count? (text : String) : Option Nat :=
  let (base, rest) := splitBase text.toList
  (unsigned? base rest).filter (· < unsignedBound)

/-- A signed 64-bit number, in either notation. -/
def amount? (text : String) : Option Int :=
  let (base, rest) := splitBase text.toList
  (signed? base rest).filter fun x => Width.bits64.Fits x

/-- Splits digits off the front. -/
def splitDigits (cs : List Char) : List Char × List Char :=
  (cs.takeWhile Char.isDigit, cs.dropWhile Char.isDigit)

/-- The exponent after a decimal, zero if there is none. -/
def exponent? : List Char → Option Int
  | [] => some 0
  | c :: rest => if c = 'e' ∨ c = 'E' then signed? 10 rest else none

/-- The double nearest to `digits · 10 ^ exponent`. Far outside the range of doubles
the power is not formed. -/
def nearest (negative : Bool) (digits : Nat) (exponent : Int) : Float :=
  let size : Int := (Nat.toDigits 10 digits).length + exponent
  if digits = 0 ∨ size < -400 then Binary64.ofRatio negative 0 1
  else if 400 < size then Binary64.ofRatio negative (powerOfTen 400) 1
  else if 0 ≤ exponent then Binary64.ofRatio negative (digits * powerOfTen exponent.toNat) 1
  else Binary64.ofRatio negative digits (powerOfTen (-exponent).toNat)

/-- The double written as a decimal without sign. -/
def unsignedDouble? (negative : Bool) (cs : List Char) : Option Float := do
  let (whole, rest) := splitDigits cs
  let (fraction, rest) := match rest with
    | '.' :: rest => splitDigits rest
    | _ => ([], rest)
  let n ← digits? 10 (whole ++ fraction)
  let e ← exponent? rest
  return nearest negative n (e - fraction.length)

/-- The double with a name. -/
def named? (negative : Bool) (cs : List Char) : Option Float :=
  let word := String.ofList (cs.map Char.toLower)
  if word = "inf" ∨ word = "infinity" then
    some (if negative then -(1.0 / 0.0) else 1.0 / 0.0)
  else if word = "nan" then some (0.0 / 0.0)
  else none

/-- A double. -/
def double? (text : String) : Option Float :=
  let (negative, rest) := splitSign text.toList
  (named? negative rest).orElse fun _ => unsignedDouble? negative rest

end NetworkFlow.Decimal
