import Comprehension.Double.Shortest

/-!
# The digits of shortest decimals

The decimal of a magnitude is found on some grid, where it rounds to the magnitude, or it is exact.
Since no decimal but zero rounds to a positive magnitude, its digits are never zero on a grid above
the units.

## Main results

* `Double.nearestTo_of_onGrid`: a decimal that is found on a grid rounds to the magnitude.
* `Double.digits_shortest_ne_zero`: the decimal of a magnitude is not zero followed by zeros.
-/

namespace Comprehension.Double

theorem nearest_zero (den : Nat) : nearest 0 den = 0 := by
  have hround : ∀ den, roundHalfEven 0 den = 0 := by
    intro den
    simp [roundHalfEven]
  rw [nearest, Nat.zero_div, hround]
  rfl

/-- Zero rounds to zero, whatever its exponent. -/
theorem nearestTo_of_digits_eq_zero {d : Decimal} (h : d.digits = 0) : nearestTo d = 0 := by
  rw [nearestTo, h, Nat.zero_mul, Nat.zero_shiftLeft, nearest_zero]

/-- A decimal that is found on a grid rounds to the magnitude. -/
theorem nearestTo_of_onGrid {m : Nat} {exponent : Int} {d : Decimal}
    (h : onGrid m exponent = some d) : nearestTo d = m := by
  simp only [onGrid] at h
  split at h
  · rename_i hbelow
    split at h
    · rename_i habove
      rw [← Option.some.inj h]
      exact habove.1
    · rw [← Option.some.inj h]
      exact hbelow
  · split at h
    · rename_i habove
      rw [← Option.some.inj h]
      exact habove
    · exact absurd h (by simp)

/-- The decimal of a magnitude is zero without an exponent, a decimal that is not zero, or one with
places after the point. -/
theorem digits_shortest_ne_zero (m : Nat) :
    (shortest m).digits ≠ 0 ∨ (shortest m).exponent ≤ 0 := by
  rw [shortest]
  split
  · exact .inr (Int.le_refl 0)
  · rename_i hm
    cases hgrid : (List.range (topExponent m + 1075)).findSome? fun (i : Nat) =>
        onGrid m ((topExponent m : Int) - i) with
    | none => exact .inr (show (-1074 : Int) ≤ 0 by decide)
    | some d =>
      obtain ⟨i, -, hi⟩ := List.exists_of_findSome?_eq_some hgrid
      refine .inl fun hzero => hm ?_
      rw [← nearestTo_of_onGrid hi]
      exact nearestTo_of_digits_eq_zero hzero

end Comprehension.Double
