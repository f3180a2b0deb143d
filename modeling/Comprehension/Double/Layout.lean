import Comprehension.Double.Shortest

/-!
# Doubles as text

Three layouts of the shortest decimal of a number: `plainText` without an exponent, `keyText` for
the name of a member, and `inspected` for inspection.
-/

namespace Comprehension.Double

/-- A text after the sign of a number. -/
def signed (x : Double) (cs : List Char) : List Char := if x.negative then '-' :: cs else cs

/-- The shortest digits of a finite number without an exponent. -/
def plainText (x : Double) : List Char := x.signed x.decimal.positional

/-- The member name that a number stands for.  Both zeros stand for the same name, and a number has
an exponent unless it is between the double of `10 ^ -6` and that of `10 ^ 21`. -/
def keyText (x : Double) : List Char :=
  if x.isNaN then "NaN".toList
  else if x.isInfinite then x.signed "Infinity".toList
  else if x.magnitude = 0 then ['0']
  else if nearestTo ⟨1, -6⟩ ≤ x.magnitude ∧ x.magnitude < nearestTo ⟨1, 21⟩ then x.plainText
  else x.signed (x.decimal.scientific true)

/-- Inspected numbers are positional from `10 ^ -4` up to `10 ^ 16`, and always have a point or an
exponent. -/
def inspectLayout : NumberLayout := ⟨-4, 15, false, true⟩

/-- A number for inspection. -/
def inspected (x : Double) : List Char :=
  if x.isNaN then "NaN".toList
  else if x.isInfinite then x.signed "inf".toList
  else x.signed (inspectLayout.text x.decimal)

end Comprehension.Double
