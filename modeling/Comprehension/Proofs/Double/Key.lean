import Comprehension.Proofs.Double.Equality
import Comprehension.Proofs.Double.FewestDigits
import Comprehension.Proofs.Json.DecimalNumeral
import Comprehension.Value.Key

/-!
# Numbers as member names

The name of a number has the digits of its shortest decimal in the layout of the host language, so
it is a numeral that rounds to the number.  Two numbers therefore have the same name only if they
are equal or both not a number.  Where an integer is exact as a double, its digits are the shortest
decimal of the double.

## Main definitions

* `Double.toRat`: the rational number of a double.
* `Double.hostText`, `Double.keyLayout`: the layout of numbers in the host language, and of names.

## Main results

* `Double.text_keyLayout`: names have the layout of the host language.
* `Double.leading_decimal_mem_iff`: the range of that layout, from the order of numbers.
* `Double.exists_readNumeral_keyText`: the name of a number is a numeral that rounds to it.
* `Double.keyText_eq_iff`: the numbers with the same name.
* `Double.keyText_eq_integerText`: the names of integers.
* `Value.keyText?_float_canonical`: names of numbers are canonical.
-/

namespace Comprehension.Double

open Json (readNumeral withMinus)

variable {x y : Double} {d : Decimal}

/-! ### Numbers -/

/-- The rational number of a finite double. -/
def toRat (x : Double) : ℚ := if x.negative then -value x.magnitude else value x.magnitude

theorem abs_toRat (x : Double) : |x.toRat| = value x.magnitude := by
  rw [toRat]
  split
  · rw [abs_neg, abs_of_nonneg (value_nonneg _)]
  · exact abs_of_nonneg (value_nonneg _)

/-- The sign bit is the sign of a number, unless the number is zero. -/
theorem negative_eq_decide (hx : x.magnitude ≠ 0) : x.negative = decide (x.toRat < 0) := by
  have hpos : 0 < value x.magnitude := value_pos hx
  rw [toRat]
  cases x.negative with
  | true => simpa using hpos
  | false => simpa using hpos.le

theorem isNaN_of_isFinite (hx : x.isFinite = true) : x.isNaN = false := by
  simp only [isFinite, isNaN, decide_eq_true_eq, decide_eq_false_iff_not] at *
  omega

theorem isInfinite_of_isFinite (hx : x.isFinite = true) : x.isInfinite = false := by
  simp only [isFinite, isInfinite, decide_eq_true_eq, decide_eq_false_iff_not] at *
  omega

/-- Finite numbers are equal when their rational numbers are. -/
theorem equal_iff_toRat_eq (hx : x.isFinite = true) (hy : y.isFinite = true) :
    x.equal y = true ↔ x.toRat = y.toRat := by
  rw [equal_iff (isNaN_of_isFinite hx) (isNaN_of_isFinite hy)]
  constructor
  · rintro (rfl | ⟨hx0, hy0⟩)
    · rfl
    · rw [toRat, toRat, hx0, hy0, value_zero, neg_zero, ite_self, ite_self]
  · intro h
    have hmag : x.magnitude = y.magnitude :=
      value_strictMono.injective (by rw [← abs_toRat, ← abs_toRat, h])
    by_cases hzero : x.magnitude = 0
    · exact .inr ⟨hzero, hmag ▸ hzero⟩
    · refine .inl (ext_iff.mpr ⟨?_, hmag⟩)
      rw [negative_eq_decide hzero, negative_eq_decide (hmag ▸ hzero), h]

/-! ### The layout of names -/

/-- The text of digits `0.ds * 10 ^ n` in the host language: without an exponent while the point is
up to twenty-one digits behind the first digit or up to six zeros before it, and with the exponent
and its sign otherwise. -/
def hostText (ds : List Char) (n : ℤ) : List Char :=
  if ds.length ≤ n ∧ n ≤ 21 then ds ++ List.replicate (n - ds.length).toNat '0'
  else if 0 < n ∧ n ≤ 21 then ds.take n.toNat ++ '.' :: ds.drop n.toNat
  else if -6 < n ∧ n ≤ 0 then '0' :: '.' :: (List.replicate (-n).toNat '0' ++ ds)
  else
    ds.take 1 ++ (if ds.length = 1 then [] else '.' :: ds.drop 1) ++
      'e' :: (if 0 < n then '+' else '-') :: Nat.toDigits 10 (n - 1).natAbs

/-- A scientific text has the exponent with its sign behind the digits. -/
theorem scientific_true (d : Decimal) :
    d.scientific true =
      d.digitText.take 1 ++ (if d.digitText.length = 1 then [] else '.' :: d.digitText.drop 1) ++
        'e' :: (if 0 < d.leading + 1 then '+' else '-') ::
          Nat.toDigits 10 (d.leading + 1 - 1).natAbs := by
  have hpos := d.length_digitText_pos
  have hdigits : Decimal.pointed d.digitText (d.digitText.length - 1) =
      d.digitText.take 1 ++ (if d.digitText.length = 1 then [] else '.' :: d.digitText.drop 1) := by
    rw [Decimal.pointed]
    by_cases hone : d.digitText.length = 1
    · rw [if_pos (by omega), if_pos hone, List.append_nil, List.take_of_length_le hone.le]
    · rw [if_neg (by omega), if_pos (by omega), if_neg hone,
        show d.digitText.length - (d.digitText.length - 1) = 1 by omega]
  rw [Decimal.scientific, hdigits, add_sub_cancel_right]
  congr 1
  cases d.leading with
  | ofNat k => simp [integerText]
  | negSucc k =>
    have hminus : ¬ (0 : ℤ) < Int.negSucc k + 1 := by omega
    simp [integerText, hminus]

/-- Names have no exponent while the leading digit is between `10 ^ -6` and `10 ^ 20`, and signed
exponents beyond. -/
def keyLayout : NumberLayout := ⟨-6, 20, true, false⟩

/-- Names have the layout of the host language. -/
theorem text_keyLayout (d : Decimal) : keyLayout.text d = hostText d.digitText (d.leading + 1) := by
  have hpos := d.length_digitText_pos
  have hleading : d.leading + 1 = d.exponent + d.digitText.length := by
    rw [Decimal.leading]
    ring
  rw [NumberLayout.text, hostText]
  simp only [keyLayout, Bool.false_and, Bool.false_eq_true, if_false]
  by_cases hrange : -6 ≤ d.leading ∧ d.leading ≤ 20
  · rw [if_pos hrange]
    cases he : d.exponent with
    | ofNat k =>
      have hk : d.exponent = k := he
      rw [if_pos (by omega), Decimal.positional, he,
        show (d.leading + 1 - d.digitText.length).toNat = k by omega]
    | negSucc k =>
      rw [if_neg (by omega), Decimal.positional, he]
      simp only [Decimal.pointed, if_neg (Nat.succ_ne_zero k)]
      by_cases hlt : k + 1 < d.digitText.length
      · rw [if_pos hlt, if_pos (by omega),
          show (d.leading + 1).toNat = d.digitText.length - (k + 1) by omega]
      · rw [if_neg hlt, if_neg (by omega), if_pos (by omega),
          show (-(d.leading + 1)).toNat = k + 1 - d.digitText.length by omega]
  · rw [if_neg hrange, if_neg (by omega), if_neg (by omega), if_neg (by omega), scientific_true]

/-- A text without an exponent has only digits and the point. -/
theorem not_mem_positional (hd : d.digits ≠ 0 ∨ d.exponent ≤ 0) : 'e' ∉ d.positional := by
  have hdigits {ds : List Char} (h : ∀ c ∈ ds, c.isDigit = true) : 'e' ∉ ds := fun he =>
    absurd (h 'e' he) (by decide)
  have htext := Json.decimalText_positional hd
  generalize d.positional = cs at htext ⊢
  cases htext with
  | whole hwhole => exact hdigits hwhole.1.2
  | fraction hwhole hfraction =>
    rw [List.mem_append, List.mem_cons]
    rintro (he | he | he)
    · exact hdigits hwhole.1.2 he
    · exact absurd he (by decide)
    · exact hdigits hfraction.2 he

/-- A name has an exponent unless the leading digit is in the range of the layout. -/
theorem mem_text_keyLayout_iff (hd : d.digits ≠ 0) :
    'e' ∉ keyLayout.text d ↔ -6 ≤ d.leading ∧ d.leading ≤ 20 := by
  rw [NumberLayout.text]
  simp only [keyLayout, Bool.false_and, Bool.false_eq_true, if_false]
  split_ifs with hrange
  · exact iff_of_true (not_mem_positional (.inl hd)) hrange
  · refine iff_of_false (not_not.mpr ?_) hrange
    exact List.mem_append_right _ List.mem_cons_self

/-! ### Names are read back -/

theorem digits_decimal_ne_zero (hx : x.magnitude ≠ 0) : x.decimal.digits ≠ 0 :=
  (isCoarsest_shortest hx).digits_ne_zero hx

theorem keyText_of_magnitude_eq_zero (hx : x.magnitude = 0) : x.keyText = ['0'] := by
  have hnan : x.isNaN = false := by simp [isNaN, hx]
  have hinf : x.isInfinite = false := by simp [isInfinite, hx, infinite]
  rw [keyText, hnan, hinf, if_neg Bool.false_ne_true, if_neg Bool.false_ne_true, if_pos hx]

/-- A number is between the doubles of two powers of ten exactly if its leading digit is. -/
theorem leading_decimal_mem_iff (hx : x.magnitude ≠ 0) :
    -6 ≤ x.decimal.leading ∧ x.decimal.leading ≤ 20 ↔
      nearestTo ⟨1, -6⟩ ≤ x.magnitude ∧ x.magnitude < nearestTo ⟨1, 21⟩ := by
  have hcoarsest := isCoarsest_shortest hx
  have hupper := hcoarsest.le_leading_iff hx (k := 21)
  rw [decimal, hcoarsest.le_leading_iff hx, ← not_le, ← hupper]
  exact and_congr_right fun _ => by omega

/-- The name of a number is its shortest decimal in the layout of names. -/
theorem keyText_of_magnitude_ne_zero (hfin : x.isFinite = true) (hx : x.magnitude ≠ 0) :
    x.keyText = withMinus x.negative (keyLayout.text x.decimal) := by
  rw [keyText, isNaN_of_isFinite hfin, isInfinite_of_isFinite hfin, if_neg Bool.false_ne_true,
    if_neg Bool.false_ne_true, if_neg hx, NumberLayout.text]
  simp only [← leading_decimal_mem_iff hx, keyLayout, Bool.false_and, Bool.false_eq_true, if_false]
  split_ifs <;> rfl

/-- The name of a finite number that is not zero is a numeral that rounds to it. -/
theorem exists_readNumeral_keyText (hfin : x.isFinite = true) (hx : x.magnitude ≠ 0) :
    ∃ n, readNumeral x.keyText = some (n, []) ∧ n.negative = x.negative ∧
      IsNearest n.toRat x.magnitude := by
  obtain ⟨n, hread, hneg, hrat⟩ :
      ∃ n, readNumeral (withMinus x.negative (keyLayout.text x.decimal)) = some (n, []) ∧
        n.negative = x.negative ∧ n.toRat = x.decimal.toRat := by
    rw [NumberLayout.text]
    split
    · exact Json.exists_readNumeral_positional _ (.inl (digits_decimal_ne_zero hx))
    · exact Json.exists_readNumeral_scientific _ _ _
  refine ⟨n, ?_, hneg, hrat ▸ (isCoarsest_shortest hx).isNearest⟩
  rw [keyText_of_magnitude_ne_zero hfin hx, hread]

/-- Every name of a finite number is a numeral. -/
theorem isSome_readNumeral_keyText (hfin : x.isFinite = true) :
    ∃ n, readNumeral x.keyText = some (n, []) ∧ IsNearest n.toRat x.magnitude ∧
      (x.magnitude ≠ 0 → n.negative = x.negative) := by
  by_cases hx : x.magnitude = 0
  · refine ⟨⟨false, ['0'], [], none⟩, ?_, ?_, fun h => absurd hx h⟩
    · rw [keyText_of_magnitude_eq_zero hx]
      rfl
    · have hzero : Json.Numeral.toRat ⟨false, ['0'], [], none⟩ = value 0 := by
        rw [value_zero]
        exact zero_mul _
      rw [hzero, hx]
      exact .self 0
  · obtain ⟨n, hread, hneg, hround⟩ := exists_readNumeral_keyText hfin hx
    exact ⟨n, hread, hround, fun _ => hneg⟩

theorem magnitude_of_not_finite (hx : x.isFinite = false) :
    x.isNaN = true ∨ x.isNaN = false ∧ x.isInfinite = true := by
  simp only [isFinite, isNaN, isInfinite, decide_eq_true_eq, decide_eq_false_iff_not] at *
  omega

/-- The names of the other numbers are words. -/
theorem keyText_of_not_finite (hx : x.isFinite = false) :
    x.keyText =
      if x.isNaN then "NaN".toList else withMinus x.negative "Infinity".toList := by
  rcases magnitude_of_not_finite hx with hnan | ⟨hnan, hinf⟩
  · rw [keyText, if_pos hnan, if_pos hnan]
  · rw [keyText, hnan, hinf, if_neg Bool.false_ne_true, if_neg Bool.false_ne_true, if_pos rfl]
    rfl

theorem readNumeral_keyText_of_not_finite (hx : x.isFinite = false) :
    readNumeral x.keyText = none := by
  rw [keyText_of_not_finite hx]
  cases x.isNaN <;> cases x.negative <;> decide

/-- Finite numbers with the same name are both zero or the same. -/
theorem eq_or_zero_of_keyText_eq (hx : x.isFinite = true) (hy : y.isFinite = true)
    (h : x.keyText = y.keyText) : x = y ∨ x.magnitude = 0 ∧ y.magnitude = 0 := by
  obtain ⟨n, hread, hround, hneg⟩ := isSome_readNumeral_keyText hx
  obtain ⟨n', hread', hround', hneg'⟩ := isSome_readNumeral_keyText hy
  rw [h, hread'] at hread
  obtain rfl : n' = n := (Prod.mk.inj (Option.some.inj hread)).1
  have hmag : x.magnitude = y.magnitude := hround.unique hround'
  by_cases hzero : x.magnitude = 0
  · exact .inr ⟨hzero, hmag ▸ hzero⟩
  · refine .inl (ext_iff.mpr ⟨?_, hmag⟩)
    rw [← hneg hzero, hneg' (hmag ▸ hzero)]

/-- Numbers have the same name exactly if they are equal or both not a number. -/
theorem keyText_eq_iff :
    x.keyText = y.keyText ↔ x.equal y = true ∨ x.isNaN = true ∧ y.isNaN = true := by
  constructor
  · intro h
    rcases hx : x.isFinite with _ | _ <;> rcases hy : y.isFinite with _ | _
    · rw [keyText_of_not_finite hx, keyText_of_not_finite hy] at h
      rcases magnitude_of_not_finite hx with hnan | ⟨hnan, hinf⟩ <;>
        rcases magnitude_of_not_finite hy with hnan' | ⟨hnan', hinf'⟩ <;>
        simp only [hnan, hnan', if_true, if_false, Bool.false_eq_true] at h
      · exact .inr ⟨hnan, hnan'⟩
      · cases hneg : y.negative <;> rw [hneg] at h <;> exact absurd h (by decide)
      · cases hneg : x.negative <;> rw [hneg] at h <;> exact absurd h (by decide)
      · have hmag : x.magnitude = y.magnitude :=
          (of_decide_eq_true hinf).trans (of_decide_eq_true hinf').symm
        have hsign : x.negative = y.negative := by
          cases hneg : x.negative <;> cases hneg' : y.negative <;> rw [hneg, hneg'] at h <;>
            first | rfl | exact absurd h (by decide)
        exact .inl ((equal_iff hnan hnan').mpr (.inl (ext_iff.mpr ⟨hsign, hmag⟩)))
    · obtain ⟨n, hread, -⟩ := isSome_readNumeral_keyText hy
      rw [← h, readNumeral_keyText_of_not_finite hx] at hread
      cases hread
    · obtain ⟨n, hread, -⟩ := isSome_readNumeral_keyText hx
      rw [h, readNumeral_keyText_of_not_finite hy] at hread
      cases hread
    · exact .inl ((equal_iff (isNaN_of_isFinite hx) (isNaN_of_isFinite hy)).mpr
        (eq_or_zero_of_keyText_eq hx hy h))
  · rintro (h | ⟨hx, hy⟩)
    · simp only [equal, Bool.and_eq_true, Bool.or_eq_true, beq_iff_eq] at h
      rcases h.2 with rfl | ⟨hx, hy⟩
      · rfl
      · rw [keyText_of_magnitude_eq_zero hx, keyText_of_magnitude_eq_zero hy]
    · rw [keyText, keyText, if_pos hx, if_pos hy]

/-! ### Integers -/

/-- The gaps of values with at most fifty-three binary digits before the point, and of those with a
few more. -/
theorem gap_le_of_value_lt {m j : ℕ} (h : value m < 2 ^ (53 + j)) : gap m ≤ 2 ^ j := by
  obtain ⟨s, r, -, hs, -, hvalue, hgap⟩ := exists_value_eq m
  have hpos := gap_pos m
  have hle : s ≤ 1074 + j := by
    rcases hs with rfl | hr
    · exact Nat.zero_le _
    · have hrq : (2 ^ 52 : ℚ) ≤ r := by exact_mod_cast hr
      have hsmall : gap m < 2 ^ (1 + j) := by
        rw [show 53 + j = 52 + (1 + j) by omega, pow_add] at h
        nlinarith
      rw [hgap, div_lt_iff₀ (pow_pos two_pos 1074), ← pow_add] at hsmall
      have := (pow_lt_pow_iff_right₀ (one_lt_two : (1 : ℚ) < 2)).mp hsmall
      omega
  rw [hgap, div_le_iff₀ (pow_pos two_pos 1074), ← pow_add, Nat.add_comm]
  exact pow_le_pow_right₀ one_le_two hle

theorem lt_add_of_abs_sub_lt {p a k : ℕ} (h : |(p : ℚ) - a| < k) : p < a + k ∧ a < p + k := by
  obtain ⟨hlow, hhigh⟩ := abs_lt.mp h
  have hp : (p : ℚ) < (a + k : ℕ) := by
    push_cast
    linarith
  have ha : (a : ℚ) < (p + k : ℕ) := by
    push_cast
    linarith
  exact ⟨by exact_mod_cast hp, by exact_mod_cast ha⟩

/-- The shortest decimal of a whole number of at most fifty-three binary digits is exact. -/
theorem IsCoarsest.toRat_eq_natCast {m a : ℕ} (h : IsCoarsest m d) (ha : value m = a)
    (hle : a ≤ 2 ^ 53) : 0 ≤ d.exponent ∧ d.toRat = a := by
  have hunits : Decimal.toRat ⟨a, 0⟩ = a := by rw [Decimal.toRat, zpow_zero, mul_one]
  have hgrid : IsNearest (Decimal.toRat ⟨a, 0⟩) m := by
    rw [hunits, ← ha]
    exact .self m
  have hexp : 0 ≤ d.exponent := h.exponent_le hgrid
  refine ⟨hexp, ?_⟩
  rcases hexp.eq_or_lt with heq | hlt
  · have hclosest := h.closest hgrid heq
    rw [hunits, ha, sub_self, abs_zero] at hclosest
    exact sub_eq_zero.mp (abs_eq_zero.mp (le_antisymm hclosest (abs_nonneg _)))
  -- On a greater grid the decimal is a multiple of ten, and `2 ^ 53` has none beside it.
  · obtain ⟨k, hk⟩ := Int.eq_ofNat_of_zero_le hexp
    obtain ⟨k, rfl⟩ := Nat.exists_eq_add_one_of_ne_zero (show k ≠ 0 by omega)
    have hrat : d.toRat = (10 * (d.digits * 10 ^ k) : ℕ) := by
      rw [Decimal.toRat, hk, zpow_natCast, pow_succ]
      push_cast
      ring
    have hnear := h.isNearest.abs_sub_le d.toRat_nonneg
    rw [hrat, ha] at hnear
    rw [hrat]
    generalize d.digits * 10 ^ k = n at hnear ⊢
    rcases hle.eq_or_lt with rfl | hsmall
    · have hgap : gap m ≤ 2 ^ 1 := gap_le_of_value_lt (by rw [ha]; norm_num)
      have hlt := lt_add_of_abs_sub_lt (k := 2) (hnear.trans_lt (by norm_num at hgap ⊢; linarith))
      omega
    · have hgap : gap m ≤ 2 ^ 0 := gap_le_of_value_lt (by rw [ha]; exact_mod_cast hsmall)
      have hlt := lt_add_of_abs_sub_lt (k := 1) (hnear.trans_lt (by norm_num at hgap ⊢; linarith))
      obtain rfl : 10 * n = a := by omega
      rfl

/-- The name of a number that is an integer of at most fifty-three binary digits. -/
theorem keyText_eq_integerText {n : ℤ} (hfin : x.isFinite = true) (hn : x.toRat = n)
    (hle : n.natAbs ≤ 2 ^ 53) : x.keyText = integerText n := by
  have hvalue : value x.magnitude = n.natAbs := by
    rw [← abs_toRat, hn, Nat.cast_natAbs, Int.cast_abs]
  by_cases hzero : x.magnitude = 0
  · rw [hzero, value_zero] at hvalue
    have habs : n.natAbs = 0 := by exact_mod_cast hvalue.symm
    obtain rfl := Int.natAbs_eq_zero.mp habs
    rw [keyText_of_magnitude_eq_zero hzero]
    rfl
  · have h := isCoarsest_shortest hzero
    obtain ⟨hexp, hrat⟩ := h.toRat_eq_natCast hvalue hle
    obtain ⟨k, hk⟩ := Int.eq_ofNat_of_zero_le hexp
    have hdigits := h.digits_ne_zero hzero
    have hprod : (shortest x.magnitude).digits * 10 ^ k = n.natAbs := by
      rw [Decimal.toRat, hk, zpow_natCast] at hrat
      exact_mod_cast hrat
    have htext : (shortest x.magnitude).positional = Nat.toDigits 10 n.natAbs := by
      rw [← hprod, Json.toDigits_mul_ten_pow (Nat.pos_of_ne_zero hdigits), Decimal.positional, hk]
      rfl
    have hrange : -6 ≤ (shortest x.magnitude).leading ∧ (shortest x.magnitude).leading ≤ 20 := by
      have hlow : 0 ≤ (shortest x.magnitude).leading := by
        have := (shortest x.magnitude).length_digitText_pos
        rw [Decimal.leading]
        omega
      have hpower := Decimal.zpow_leading_le hdigits
      have hsmall : (n.natAbs : ℚ) < 10 ^ (21 : ℤ) := by
        have := Nat.lt_of_le_of_lt hle (show 2 ^ 53 < 10 ^ 21 by decide)
        exact_mod_cast this
      rw [hrat] at hpower
      have := (zpow_lt_zpow_iff_right₀ (by norm_num)).mp (hpower.trans_lt hsmall)
      omega
    rw [keyText_of_magnitude_ne_zero hfin hzero, NumberLayout.text, decimal]
    simp only [keyLayout, Bool.false_and, Bool.false_eq_true, if_false]
    rw [if_pos hrange, htext, negative_eq_decide hzero, hn, Json.integerText_eq_withMinus]
    simp only [Int.cast_lt_zero]

theorem isFinite_of_value_lt (h : value x.magnitude < 2 ^ 1024) : x.isFinite = true := by
  rw [← value_infinite] at h
  exact decide_eq_true (value_strictMono.lt_iff_lt.mp h)

/-- Every integer of at most fifty-three binary digits is a double. -/
theorem exists_toRat_eq_intCast {n : ℤ} (hle : n.natAbs ≤ 2 ^ 53) :
    ∃ x : Double, x.isFinite = true ∧ x.toRat = n := by
  obtain ⟨m, hvalue⟩ := exists_value_eq_natCast hle
  have hlt : value m < 2 ^ 1024 := by
    have hq : (n.natAbs : ℚ) ≤ 2 ^ 53 := by exact_mod_cast hle
    rw [hvalue]
    exact hq.trans_lt (pow_lt_pow_right₀ one_lt_two (by decide))
  have hm63 : m < 1 <<< 63 := by
    rw [← value_infinite] at hlt
    exact (value_strictMono.lt_iff_lt.mp hlt).trans (by decide)
  refine ⟨ofMagnitude (decide (n < 0)) m, isFinite_of_value_lt ?_, ?_⟩
  · rwa [magnitude_ofMagnitude hm63]
  · rw [toRat, negative_ofMagnitude hm63, magnitude_ofMagnitude hm63, hvalue]
    by_cases hneg : n < 0
    · rw [if_pos (decide_eq_true hneg), Nat.cast_natAbs, Int.cast_abs,
        abs_of_neg (by exact_mod_cast hneg), neg_neg]
    · rw [if_neg (by simpa using hneg), Nat.cast_natAbs, Int.cast_abs,
        abs_of_nonneg (by exact_mod_cast not_lt.mp hneg)]

end Comprehension.Double

namespace Comprehension.Value

open Double

/-- Numbers have the same name exactly if they are equal or both not a number, and both zeros have
the name `0`.  The name of a finite number that is not zero denotes a decimal which rounds to the
number, in the layout of the host language for its shortest digits; it has no exponent while the
leading digit is between `10 ^ -6` and `10 ^ 20`, which is while the number is in that range.  An
integer of at most fifty-three binary digits has the same name as the equal double. -/
theorem keyText?_float_canonical :
    (∀ x y : Double,
      ((float x).keyText? = (float y).keyText? ↔
        x.equal y = true ∨ x.isNaN = true ∧ y.isNaN = true) ∧
      (x.isFinite = true → y.isFinite = true → (x.equal y = true ↔ x.toRat = y.toRat))) ∧
    (∀ x : Double, x.magnitude = 0 → (float x).keyText? = some "0") ∧
    (∀ x : Double, x.isFinite = true → x.magnitude ≠ 0 →
      IsShortest x.magnitude x.decimal ∧
      ∃ key, (float x).keyText? = some key ∧
        (∃ n, Json.readNumeral key.toList = some (n, []) ∧ n.negative = x.negative ∧
          IsNearest n.toRat x.magnitude) ∧
        key.toList = x.signed (hostText x.decimal.digitText (x.decimal.leading + 1)) ∧
        ('e' ∉ key.toList ↔ -6 ≤ x.decimal.leading ∧ x.decimal.leading ≤ 20) ∧
        ('e' ∉ key.toList ↔ nearestTo ⟨1, -6⟩ ≤ x.magnitude ∧ x.magnitude < nearestTo ⟨1, 21⟩)) ∧
    ∀ n : Int64, n.toInt.natAbs ≤ 2 ^ 53 →
      (∃ x : Double, x.isFinite = true ∧ x.toRat = n.toInt) ∧
      ∀ x : Double, x.isFinite = true → x.toRat = n.toInt →
        (integer n).keyText? = (float x).keyText? := by
  refine ⟨fun x y => ⟨?_, equal_iff_toRat_eq⟩, fun x hx => ?_, fun x hfin hx => ?_, fun n hn => ?_⟩
  · rw [← keyText_eq_iff, keyText?, keyText?, Option.some_inj, String.ofList_inj]
  · rw [keyText?, keyText_of_magnitude_eq_zero hx]
  · have hdigits := digits_decimal_ne_zero hx
    have hplain : 'e' ∉ x.keyText ↔ -6 ≤ x.decimal.leading ∧ x.decimal.leading ≤ 20 := by
      rw [keyText_of_magnitude_ne_zero hfin hx, ← mem_text_keyLayout_iff hdigits, Json.withMinus]
      cases x.negative with
      | true => simp
      | false => rfl
    refine ⟨isShortest_shortest hx, _, rfl, ?_⟩
    rw [String.toList_ofList]
    refine ⟨exists_readNumeral_keyText hfin hx, ?_, hplain, hplain.trans ?_⟩
    · rw [keyText_of_magnitude_ne_zero hfin hx, text_keyLayout]
      rfl
    · exact leading_decimal_mem_iff hx
  · refine ⟨exists_toRat_eq_intCast hn, fun x hfin hrat => ?_⟩
    rw [keyText?, keyText?, keyText_eq_integerText hfin hrat hn]

/-- The name of `10 ^ 21` has an exponent, and `2 ^ 53` has its name as an integer and as a
double. -/
theorem keyText?_float_canonical_of_limits :
    let x : Double := ⟨0x444B1AE4D6E2EF50⟩
    let n : Int64 := 9007199254740992
    (x.isFinite = true ∧ x.magnitude ≠ 0 ∧
      ∃ key, (float x).keyText? = some key ∧ 'e' ∈ key.toList) ∧
    n.toInt.natAbs ≤ 2 ^ 53 ∧ ∃ y : Double, y.isFinite = true ∧ y.toRat = n.toInt ∧
      (integer n).keyText? = (float y).keyText? := by
  intro x n
  have hfin : x.isFinite = true := by decide
  have hx : x.magnitude ≠ 0 := by decide
  have hn : n.toInt.natAbs ≤ 2 ^ 53 := by decide
  have hrange : ¬ x.magnitude < nearestTo ⟨1, 21⟩ := by decide +kernel
  obtain ⟨-, -, hfloat, hinteger⟩ := keyText?_float_canonical
  obtain ⟨-, key, hkey, -, -, -, hplain⟩ := hfloat x hfin hx
  obtain ⟨⟨y, hy, hrat⟩, hsame⟩ := hinteger n hn
  refine ⟨⟨hfin, hx, key, hkey, ?_⟩, hn, y, hy, hrat, hsame y hy hrat⟩
  exact not_not.mp fun h => hrange (hplain.mp h).2

end Comprehension.Value
