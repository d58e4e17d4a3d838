import NetworkFlow.Decimal.Binary64

/-!
# The shortest decimal text of a double

Of all decimals that read back as a given double, `shortest` has the fewest digits,
and of these it is the nearest; a tie goes up. `text` writes it out in positional
notation, however long that gets, and writes no point if there is nothing after it.

The decimals that read back as `m · 2 ^ e` fill an interval around it that ends halfway
to the neighbouring doubles; the ends belong to it if `m` is even. For one digit, two
digits, and so on, the two decimals on either side of the double are tried.
-/

namespace NetworkFlow.Decimal

/-- The decimal `digits · 10 ^ exponent`. -/
structure Digits where
  digits : Nat
  exponent : Int
  deriving DecidableEq, Repr

/-- A positive double and the interval of numbers that read back as it, as
numerators over one denominator. -/
structure Target where
  low : Nat
  value : Nat
  high : Nat
  den : Nat
  /-- The ends belong to the interval. -/
  closed : Bool

/-- The interval of `mantissa · 2 ^ exponent`, in quarters of the last bit. -/
def Target.ofFinite (mantissa : Nat) (exponent : Int) (sparse : Bool) : Target :=
  let (unit, den) := Binary64.scaled 1 4 (-exponent)
  let below := if sparse then 1 else 2
  { low := (4 * mantissa - below) * unit
    value := 4 * mantissa * unit
    high := (4 * mantissa + 2) * unit
    den := den
    closed := mantissa % 2 = 0 }

/-- How many digits the whole part of a number has; zero or less counts the zeros
after the point of a number below one, downwards. -/
def magnitude (num den : Nat) : Int :=
  if den ≤ num then (Nat.toDigits 10 (num / den)).length
  else
    match (List.range 400).find? fun j => den ≤ num * powerOfTen (j + 1) with
    | some j => -(j : Int)
    | none => -400

/-- The decimal with `count` digits on the lower side of a number, or the one above it,
whichever is in the interval and nearer. -/
def candidate? (t : Target) (top : Int) (count : Nat) : Option Digits :=
  let e := top - count
  -- numerators and denominator of the number and its interval over `10 ^ e`
  let up := if 0 ≤ e then 1 else powerOfTen (-e).toNat
  let den := if 0 ≤ e then t.den * powerOfTen e.toNat else t.den
  let value := t.value * up
  let floor := value / den
  let inside := fun n =>
    if t.closed then t.low * up ≤ n * den ∧ n * den ≤ t.high * up
    else t.low * up < n * den ∧ n * den < t.high * up
  let lowerIn : Bool := inside floor
  let upperIn : Bool := inside (floor + 1)
  let lowerNearer : Bool := 2 * value < (2 * floor + 1) * den
  if lowerIn && (!upperIn || lowerNearer) then some ⟨floor, e⟩
  else if upperIn then some ⟨floor + 1, e⟩
  else none

/-- The shortest decimal that reads back as a positive double. -/
def shortest (t : Target) : Digits :=
  let top := magnitude t.value t.den
  ((List.range 17).findSome? fun k => candidate? t top (k + 1)).getD ⟨0, 0⟩

/-- Takes zeros off the end of the digits, `count` at most. -/
def Digits.trim : Nat → Digits → Digits
  | 0, d => d
  | count + 1, d =>
      if d.digits % 10 = 0 ∧ d.digits ≠ 0 then trim count ⟨d.digits / 10, d.exponent + 1⟩ else d

/-- A decimal in positional notation. -/
def Digits.positional (d : Digits) : String :=
  let digits := Nat.toDigits 10 d.digits
  if 0 ≤ d.exponent then
    String.ofList (digits ++ List.replicate d.exponent.toNat '0')
  else
    let places := (-d.exponent).toNat
    if places < digits.length then
      let whole := digits.length - places
      String.ofList (digits.take whole ++ '.' :: digits.drop whole)
    else
      String.ofList ('0' :: '.' :: List.replicate (places - digits.length) '0' ++ digits)

/-- A double as text. -/
def text (x : Float) : String :=
  match Binary64.decode x.toBits with
  | .nan => "NaN"
  | .infinite negative => if negative then "-inf" else "inf"
  | .finite negative mantissa exponent sparse =>
      let digits :=
        if mantissa = 0 then "0"
        else ((shortest (.ofFinite mantissa exponent sparse)).trim 20).positional
      if negative then "-" ++ digits else digits

end NetworkFlow.Decimal
