import Comprehension.Double.Rounding

/-!
# Shortest decimals of doubles

`shortest` is the decimal with the fewest digits that rounds to a given magnitude, the nearest to
its value where there are two, and the greater of two that are equally near.  The powers of ten are
tried from one above the value downwards.  On each grid only the two neighbours of the value can be
the nearest that rounds to it, and on the grid of `10 ^ -1074` the value itself lies.
-/

namespace Comprehension.Double

/-- The neighbours of a magnitude's value on the grid of a power of ten that round to it, the
nearer of two, and the greater when they are equally near. -/
def onGrid (m : Nat) (exponent : Int) : Option Decimal :=
  let num := units m * Nat.pow 10 (-exponent).toNat
  let den := Nat.pow 10 exponent.toNat <<< 1074
  let below : Decimal := ⟨num / den, exponent⟩
  let above : Decimal := ⟨num / den + 1, exponent⟩
  if nearestTo below = m then
    if nearestTo above = m ∧ den ≤ 2 * (num % den) then some above else some below
  else if nearestTo above = m then some above
  else none

/-- The value of a magnitude as a decimal without rounding. -/
def exact (m : Nat) : Decimal := ⟨units m * Nat.pow 5 1074, -1074⟩

/-- The power of ten above the value of a magnitude. -/
def topExponent (m : Nat) : Nat := (Nat.toDigits 10 (units m >>> 1074)).length

/-- The decimal with the fewest digits that rounds to a finite magnitude. -/
def shortest (m : Nat) : Decimal :=
  if m = 0 then ⟨0, 0⟩
  else
    ((List.range (topExponent m + 1075)).findSome? fun (i : Nat) =>
      onGrid m ((topExponent m : Int) - i)).getD (exact m)

/-- The shortest decimal of a finite number, without its sign. -/
def decimal (x : Double) : Decimal := shortest x.magnitude

end Comprehension.Double
