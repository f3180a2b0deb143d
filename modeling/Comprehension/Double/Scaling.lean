import Comprehension.Double.Rounding

/-!
# Scaling doubles by powers of ten

A decimal is made a double in steps that each round to nearest: its digits first, and then the
product with a power of ten or the quotient by one.  Only the powers up to `powerLimit` are used, so
a decimal below them is divided several times.  The steps round on their own, and the result need
not be the double nearest to the decimal.
-/

namespace Comprehension.Double

/-- The magnitude nearest to the product of two values. -/
def product (m n : Nat) : Nat := nearest (units m * units n) (1 <<< 1074)

/-- The magnitude nearest to the quotient of two values. -/
def quotient (m n : Nat) : Nat := nearest (units m <<< 1074) (units n)

/-- The greatest power of ten that is a finite double. -/
def powerLimit : Nat := 308

/-- The magnitude nearest to a power of ten. -/
def tenPower (k : Nat) : Nat := nearestTo ⟨1, k⟩

/-- A magnitude scaled by a power of ten, unless that is infinite. -/
def scale? (m : Nat) (exponent : Int) : Option Nat :=
  if m = 0 then some 0
  else if exponent < -powerLimit then
    scale? (quotient m (tenPower powerLimit)) (exponent + powerLimit)
  else if exponent < 0 then some (quotient m (tenPower exponent.natAbs))
  else if powerLimit < exponent then none
  else
    let p := product m (tenPower exponent.natAbs)
    if p < infinite then some p else none
termination_by (-exponent).toNat
decreasing_by
  simp only [powerLimit] at *
  omega

/-- The double that a signed decimal scales to, unless that is infinite. -/
def ofDecimal? (negative : Bool) (d : Decimal) : Option Double :=
  (scale? (nearestTo ⟨d.digits, 0⟩) d.exponent).map (ofMagnitude negative)

end Comprehension.Double
