/-!
# Binary floating-point numbers

A double is given by the sixty-four bits of its IEEE 754 binary64 encoding: a sign, eleven bits of
exponent and fifty-two bits of fraction.  The bits below the sign are read as one natural number,
the magnitude, whose order is the order of the absolute values.
-/

namespace Comprehension

/-- A binary64 number, given by its bits. -/
structure Double where
  bits : UInt64
  deriving DecidableEq

namespace Double

/-- The magnitude of the infinities, above that of every finite number. -/
def infinite : Nat := 2047 <<< 52

/-- The sign bit. -/
def negative (x : Double) : Bool := (1 <<< 63) ≤ x.bits.toNat

/-- The bits below the sign. -/
def magnitude (x : Double) : Nat := x.bits.toNat % (1 <<< 63)

/-- The number with a sign and a magnitude. -/
def ofMagnitude (negative : Bool) (m : Nat) : Double :=
  ⟨UInt64.ofNat (if negative then (1 <<< 63) + m else m)⟩

def isNaN (x : Double) : Bool := infinite < x.magnitude

def isInfinite (x : Double) : Bool := x.magnitude = infinite

def isFinite (x : Double) : Bool := x.magnitude < infinite

/-- Numbers are equal when they have the same bits or are both zero, and not a number is equal to
nothing. -/
def equal (x y : Double) : Bool :=
  !x.isNaN && !y.isNaN && (x == y || (x.magnitude == 0 && y.magnitude == 0))

/-- The absolute value of a finite magnitude in units of `2 ^ -1074`, the least positive number. -/
def units (m : Nat) : Nat :=
  if m < (1 <<< 52) then m else ((1 <<< 52) + m % (1 <<< 52)) <<< ((m >>> 52) - 1)

theorem magnitude_lt (x : Double) : x.magnitude < (1 <<< 63) := Nat.mod_lt _ (by decide)

theorem toNat_bits_ofMagnitude {b : Bool} {m : Nat} (h : m < (1 <<< 63)) :
    (ofMagnitude b m).bits.toNat = if b then (1 <<< 63) + m else m := by
  refine UInt64.toNat_ofNat_of_lt' ?_
  cases b <;> simp [UInt64.size] <;> omega

theorem magnitude_ofMagnitude {b : Bool} {m : Nat} (h : m < (1 <<< 63)) :
    (ofMagnitude b m).magnitude = m := by
  rw [magnitude, toNat_bits_ofMagnitude h]
  cases b <;> simp <;> omega

theorem negative_ofMagnitude {b : Bool} {m : Nat} (h : m < (1 <<< 63)) :
    (ofMagnitude b m).negative = b := by
  simp only [negative, toNat_bits_ofMagnitude h]
  cases b <;> simp
  omega

/-- A number is its sign and its magnitude. -/
theorem ofMagnitude_negative_magnitude (x : Double) :
    ofMagnitude x.negative x.magnitude = x := by
  have hlt := x.bits.toNat_lt
  have h := toNat_bits_ofMagnitude (b := x.negative) x.magnitude_lt
  have hx : (ofMagnitude x.negative x.magnitude).bits = x.bits := by
    refine UInt64.toNat_inj.mp (h.trans ?_)
    simp only [negative, magnitude, decide_eq_true_eq, Nat.reduceShiftLeft]
    split <;> omega
  cases x
  exact congrArg Double.mk hx

end Double

end Comprehension
