import Comprehension.Double.Basic

/-!
# Equality of doubles

Equality of doubles is that of numbers and not of bits: it takes both zeros for the same, and not a
number is equal to nothing.  It is symmetric and transitive, and reflexive on numbers.

## Main results

* `Double.equal_eq_true_iff`, `Double.equal_self_iff`, `Double.equal_comm`, `Double.equal_trans`.
* `Double.eq_of_equal`: apart from the negative zero, equal numbers have the same bits.
-/

namespace Comprehension.Double

variable {x y z : Double}

theorem ext_iff : x = y ↔ x.negative = y.negative ∧ x.magnitude = y.magnitude := by
  refine ⟨fun h => h ▸ ⟨rfl, rfl⟩, fun ⟨hneg, hmag⟩ => ?_⟩
  rw [← x.ofMagnitude_negative_magnitude, ← y.ofMagnitude_negative_magnitude, hneg, hmag]

theorem equal_eq_true_iff : x.equal y = true ↔
    x.isNaN = false ∧ y.isNaN = false ∧ (x = y ∨ x.magnitude = 0 ∧ y.magnitude = 0) := by
  simp [equal, and_assoc]

/-- Equality of numbers compares signs and magnitudes, and takes both zeros for the same. -/
theorem equal_iff (hx : x.isNaN = false) (hy : y.isNaN = false) :
    x.equal y = true ↔ x = y ∨ x.magnitude = 0 ∧ y.magnitude = 0 := by
  simp [equal, hx, hy]

/-- Exactly the numbers are equal to themselves. -/
theorem equal_self_iff : x.equal x = true ↔ x.isNaN = false := by
  simp [equal_eq_true_iff]

theorem equal_comm : x.equal y = y.equal x := by
  refine Bool.eq_iff_iff.mpr ?_
  rw [equal_eq_true_iff, equal_eq_true_iff, and_left_comm, eq_comm (a := x),
    and_comm (a := x.magnitude = 0)]

theorem equal_trans (hxy : x.equal y = true) (hyz : y.equal z = true) : x.equal z = true := by
  obtain ⟨hx, -, hxy⟩ := equal_eq_true_iff.mp hxy
  obtain ⟨-, hz, hyz⟩ := equal_eq_true_iff.mp hyz
  refine equal_eq_true_iff.mpr ⟨hx, hz, ?_⟩
  rcases hxy with rfl | ⟨hx0, hy0⟩
  · exact hyz
  · rcases hyz with rfl | ⟨-, hz0⟩
    · exact .inr ⟨hx0, hy0⟩
    · exact .inr ⟨hx0, hz0⟩

/-- The zero with the sign bit. -/
def negativeZero : Double := ofMagnitude true 0

theorem eq_zero_of_ne_negativeZero (h0 : x.magnitude = 0) (h : x ≠ negativeZero) :
    x = ofMagnitude false 0 := by
  rw [← x.ofMagnitude_negative_magnitude, h0] at h ⊢
  cases hx : x.negative with
  | true => exact absurd (by rw [hx, negativeZero]) h
  | false => rfl

/-- Equal numbers are the same unless one of them is the negative zero. -/
theorem eq_of_equal (h : x.equal y = true) (hx : x ≠ negativeZero) (hy : y ≠ negativeZero) :
    x = y := by
  obtain ⟨-, -, rfl | ⟨hx0, hy0⟩⟩ := equal_eq_true_iff.mp h
  · rfl
  · rw [eq_zero_of_ne_negativeZero hx0 hx, eq_zero_of_ne_negativeZero hy0 hy]

end Comprehension.Double
