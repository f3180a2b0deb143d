import Comprehension.Decimal
import Comprehension.Double.Basic

/-!
# Rounding decimals to doubles

`nearest` is the magnitude of the double nearest to a quotient of natural numbers, a tie going to
the even magnitude, and `nearestTo` that of the double nearest to a decimal.
-/

namespace Comprehension.Double

/-- The natural number nearest to `num / den`, the even one of two. -/
def roundHalfEven (num den : Nat) : Nat :=
  let q := num / den
  let r := num % den
  if 2 * r < den then q else if den < 2 * r then q + 1 else q + q % 2

/-- The magnitude of the number nearest to `num / den` units of `2 ^ -1074`.  A quotient below
`2 ^ 53` rounds to a whole unit, and each further binary digit doubles the spacing. -/
def nearest (num den : Nat) : Nat :=
  let s := (num / den).log2 - 52
  (s <<< 52) + roundHalfEven num (den <<< s)

/-- The magnitude nearest to a decimal. -/
def nearestTo (d : Decimal) : Nat :=
  nearest ((d.digits * Nat.pow 10 d.exponent.toNat) <<< 1074) (Nat.pow 10 (-d.exponent).toNat)

end Comprehension.Double
