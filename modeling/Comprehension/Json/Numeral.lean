import Comprehension.Double.Scaling
import Comprehension.Value.Basic

/-!
# Numerals of JSON

A numeral is an optional minus sign, digits without a leading zero, and an optional fraction and
exponent.  A numeral with neither fraction nor exponent is an integer when it fits sixty-four bits,
negative zero apart; every other one is the double that its decimal scales to, and overflow is no
number.  The decimal has only as many of the digits as make a number below `2 ^ 64`.
-/

namespace Comprehension.Json

/-- The parts of a numeral: the digits before the point, those after it, which are none when there
is no point, and the exponent. -/
structure Numeral where
  negative : Bool
  whole : List Char
  fraction : List Char
  exponent? : Option Int
  deriving DecidableEq

namespace Numeral

/-- All digits as one natural number. -/
def digits (n : Numeral) : Nat := Nat.ofDigitChars 10 (n.whole ++ n.fraction) 0

/-- A number with digits appended while it stays below `2 ^ 64`, and how many digits are left. -/
def appendDigits (n : Nat) : List Char → Nat × Nat
  | [] => (n, 0)
  | c :: cs =>
    let longer := 10 * n + (c.toNat - '0'.toNat)
    if longer < (1 <<< 64) then appendDigits longer cs else (n, cs.length + 1)

/-- The decimal of a numeral, without its sign.  The digits of the whole part that are left count as
zeros, and those of the fraction are dropped. -/
def decimal (n : Numeral) : Decimal :=
  let (whole, zeros) := appendDigits 0 n.whole
  let (digits, dropped) := appendDigits whole n.fraction
  ⟨digits, n.exponent?.getD 0 + zeros + dropped - n.fraction.length⟩

/-- The integer that a numeral with neither fraction nor exponent denotes, if it fits sixty-four
bits and is not negative zero. -/
def integer? (n : Numeral) : Option Int64 :=
  if n.fraction ≠ [] ∨ n.exponent? ≠ none ∨ (n.negative = true ∧ n.digits = 0) then none
  else
    let k : Int := if n.negative then -n.digits else n.digits
    if Int64.minValue.toInt ≤ k ∧ k ≤ Int64.maxValue.toInt then some (Int64.ofInt k) else none

/-- The value of a numeral. -/
def value? (n : Numeral) : Option Value :=
  match n.integer? with
  | some k => some (.integer k)
  | none => (Double.ofDecimal? n.negative n.decimal).map .float

end Numeral

/-- The leading digits of a text and the rest. -/
def readDigits (cs : List Char) : Option (List Char × List Char) :=
  let ds := cs.takeWhile Char.isDigit
  if ds.isEmpty then none else some (ds, cs.dropWhile Char.isDigit)

/-- The digits before the point: a zero alone, or digits that start with another one. -/
def readWhole : List Char → Option (List Char × List Char)
  | '0' :: cs => some (['0'], cs)
  | cs => readDigits cs

/-- The digits after a point, or none where there is no point. -/
def readFraction : List Char → Option (List Char × List Char)
  | '.' :: cs => readDigits cs
  | cs => some ([], cs)

/-- The digits of an exponent after its sign. -/
def readSignedDigits : List Char → Option (Int × List Char)
  | '-' :: cs => (readDigits cs).map fun p => (-(Nat.ofDigitChars 10 p.1 0 : Int), p.2)
  | '+' :: cs => (readDigits cs).map fun p => ((Nat.ofDigitChars 10 p.1 0 : Int), p.2)
  | cs => (readDigits cs).map fun p => ((Nat.ofDigitChars 10 p.1 0 : Int), p.2)

/-- The exponent after an `e` of either case, or none. -/
def readExponent : List Char → Option (Option Int × List Char)
  | 'e' :: cs => (readSignedDigits cs).map fun p => (some p.1, p.2)
  | 'E' :: cs => (readSignedDigits cs).map fun p => (some p.1, p.2)
  | cs => some (none, cs)

/-- The sign of a numeral. -/
def readSign : List Char → Bool × List Char
  | '-' :: cs => (true, cs)
  | cs => (false, cs)

/-- The numeral that a text starts with, and the rest. -/
def readNumeral (cs : List Char) : Option (Numeral × List Char) := do
  let (negative, cs) := readSign cs
  let (whole, cs) ← readWhole cs
  let (fraction, cs) ← readFraction cs
  let (exponent?, cs) ← readExponent cs
  return (⟨negative, whole, fraction, exponent?⟩, cs)

private theorem length_dropWhile_le (p : Char → Bool) (cs : List Char) :
    (cs.dropWhile p).length ≤ cs.length :=
  (List.dropWhile_sublist p).length_le

private theorem length_lt_of_readDigits {cs ds rest : List Char}
    (h : readDigits cs = some (ds, rest)) : rest.length < cs.length := by
  simp only [readDigits] at h
  split at h
  · simp at h
  · rename_i hds
    simp only [Option.some.injEq, Prod.mk.injEq] at h
    obtain ⟨_, rfl⟩ := h
    cases cs with
    | nil => simp at hds
    | cons c cs =>
      by_cases hc : c.isDigit = true
      · have := length_dropWhile_le Char.isDigit cs
        simp only [List.dropWhile_cons_of_pos hc, List.length_cons]
        omega
      · simp [hc] at hds

private theorem length_lt_of_readWhole {cs ds rest : List Char}
    (h : readWhole cs = some (ds, rest)) : rest.length < cs.length := by
  unfold readWhole at h
  split at h
  · simp_all
  · exact length_lt_of_readDigits h

private theorem length_le_of_readFraction {cs ds rest : List Char}
    (h : readFraction cs = some (ds, rest)) : rest.length ≤ cs.length := by
  unfold readFraction at h
  split at h
  · have := length_lt_of_readDigits h
    simp only [List.length_cons]
    omega
  · simp_all

private theorem length_lt_of_readSignedDigits {cs rest : List Char} {n : Int}
    (h : readSignedDigits cs = some (n, rest)) : rest.length < cs.length := by
  unfold readSignedDigits at h
  split at h <;>
    (simp only [Option.map_eq_some_iff, Prod.mk.injEq, Prod.exists] at h
     obtain ⟨_, _, hd, _, rfl⟩ := h
     have := length_lt_of_readDigits hd)
  · exact Nat.lt_succ_of_lt this
  · exact Nat.lt_succ_of_lt this
  · exact this

private theorem length_le_of_readExponent {cs rest : List Char} {n : Option Int}
    (h : readExponent cs = some (n, rest)) : rest.length ≤ cs.length := by
  unfold readExponent at h
  split at h
  · simp only [Option.map_eq_some_iff, Prod.mk.injEq, Prod.exists] at h
    obtain ⟨_, _, hd, _, rfl⟩ := h
    have := length_lt_of_readSignedDigits hd
    simp only [List.length_cons]
    omega
  · simp only [Option.map_eq_some_iff, Prod.mk.injEq, Prod.exists] at h
    obtain ⟨_, _, hd, _, rfl⟩ := h
    have := length_lt_of_readSignedDigits hd
    simp only [List.length_cons]
    omega
  · simp_all

theorem length_lt_of_readNumeral {cs rest : List Char} {n : Numeral}
    (h : readNumeral cs = some (n, rest)) : rest.length < cs.length := by
  simp only [readNumeral, Option.bind_eq_bind, Option.bind_eq_some_iff, Option.pure_def,
    Option.some.injEq, Prod.mk.injEq, Prod.exists] at h
  obtain ⟨_, cs₁, hw, _, cs₂, hf, _, cs₃, he, _, rfl⟩ := h
  have hs : (readSign cs).2.length ≤ cs.length := by
    unfold readSign
    split <;> simp
  have hw := length_lt_of_readWhole hw
  have hf := length_le_of_readFraction hf
  have he := length_le_of_readExponent he
  omega

end Comprehension.Json
