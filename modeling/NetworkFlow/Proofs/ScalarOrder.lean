import Mathlib.Order.Defs.Unbundled
import NetworkFlow.Proofs.Exact

/-!
# The order of costs

The engines compare costs with `<` alone. Words of every width and the integers are in a total
order by it. Of binary floating point only less is true, as a NaN is neither less nor more than
anything: there `<` is a strict order, and what needs no more than that is proved from
`IsStrictOrder`.

Main results: the two instances of `IsStrictTotalOrder`.
-/

namespace NetworkFlow

/-- Words are in the order of the integers that they stand for. -/
instance isStrictTotalOrder_word (w : Width) : IsStrictTotalOrder (Word w) (· < ·) where
  irrefl x := lt_irrefl x.val
  trans x y z := lt_trans (a := x.val) (b := y.val) (c := z.val)
  trichotomous _ _ hxy hyx := Word.ext (le_antisymm (not_lt.mp hyx) (not_lt.mp hxy))

/-- The integers are in their own order. -/
instance isStrictTotalOrder_exact [inst : ExactCosts] :
    IsStrictTotalOrder Int (@LT.lt Int inst.toLT) where
  irrefl x h := lt_irrefl x ((scalar_lt_iff x x).mp h)
  trans x y z hxy hyz := (scalar_lt_iff x z).mpr
    (lt_trans ((scalar_lt_iff x y).mp hxy) ((scalar_lt_iff y z).mp hyz))
  trichotomous x y hxy hyx := by
    rw [scalar_lt_iff] at hxy hyx
    exact le_antisymm (not_lt.mp hyx) (not_lt.mp hxy)

end NetworkFlow
