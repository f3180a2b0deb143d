/-!
# Decimals

A decimal is a natural number of units of a power of ten.  The module writes decimals and integers
by digits: `positional` without an exponent, `scientific` with one digit before the point and the
power of the leading digit after an `e`.
-/

namespace Comprehension

/-- The decimal `digits * 10 ^ exponent`. -/
structure Decimal where
  digits : Nat
  exponent : Int
  deriving DecidableEq

/-- The decimal digits of an integer, after a minus sign when it is negative. -/
def integerText : Int → List Char
  | .ofNat n => Nat.toDigits 10 n
  | .negSucc n => '-' :: Nat.toDigits 10 (n + 1)

namespace Decimal

/-- The digits as written, without leading zeros. -/
def digitText (d : Decimal) : List Char := Nat.toDigits 10 d.digits

/-- The power of ten of the leading digit. -/
def leading (d : Decimal) : Int := d.exponent + (d.digitText.length - 1)

/-- Digits whose last `places` stand after the point. -/
def pointed (ds : List Char) (places : Nat) : List Char :=
  if places = 0 then ds
  else if places < ds.length then
    ds.take (ds.length - places) ++ '.' :: ds.drop (ds.length - places)
  else '0' :: '.' :: (List.replicate (places - ds.length) '0' ++ ds)

/-- The decimal written without an exponent. -/
def positional (d : Decimal) : List Char :=
  match d.exponent with
  | .ofNat k => d.digitText ++ List.replicate k '0'
  | .negSucc k => pointed d.digitText (k + 1)

/-- The decimal written with one digit before the point and an exponent, which has a plus sign
only when `plus` asks for it. -/
def scientific (plus : Bool) (d : Decimal) : List Char :=
  let ds := d.digitText
  let sign := if plus && 0 ≤ d.leading then ['+'] else []
  pointed ds (ds.length - 1) ++ 'e' :: (sign ++ integerText d.leading)

end Decimal

/-- The layout of a number: the powers of the leading digit that are written without an exponent,
whether a positive exponent has a plus sign, and whether a whole number ends in `.0`. -/
structure NumberLayout where
  least : Int
  greatest : Int
  plus : Bool
  pointZero : Bool

/-- A decimal in a layout. -/
def NumberLayout.text (layout : NumberLayout) (d : Decimal) : List Char :=
  if layout.least ≤ d.leading ∧ d.leading ≤ layout.greatest then
    if layout.pointZero && 0 ≤ d.exponent then d.positional ++ ['.', '0'] else d.positional
  else d.scientific layout.plus

end Comprehension
