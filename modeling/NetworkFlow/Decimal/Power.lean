/-!
# Powers of the two bases

Doubles are scaled by powers of two and written with powers of ten.
-/

namespace NetworkFlow.Decimal

/-- A power of two. -/
def powerOfTwo (k : Nat) : Nat := 1 <<< k

/-- A power of ten. -/
def powerOfTen (k : Nat) : Nat := Nat.pow 10 k

end NetworkFlow.Decimal
