import Comprehension.Double.Scaling
import Comprehension.Proofs.Double.FewestDigits

/-!
# The error of scaling

Every step of scaling a decimal rounds, and the rounding of a normal number has a relative error of
at most `2 ^ -53`.  The number that the last step rounds therefore differs from the decimal by at
most three roundings, which are at most three gaps, and the result is at most three steps away from
the magnitude that the decimal rounds to.  A very small decimal is divided twice; the first quotient
may be subnormal only for digits that are exact.

## Main definitions

* `Double.Within`: a number between two multiples of another one.
* `Double.Close`: numbers that differ by at most three roundings.

## Main results

* `Double.IsNearest.le_add_three`: close numbers have magnitudes that are at most three steps apart.
* `Double.close_product`, `Double.close_quotient`, `Double.close_quotient_quotient`: the numbers
  that the last step rounds.
* `Double.scale?_le_add_three`: the error of scaling.
* `Double.scale?_of_exact`: decimals that are scaled without an error.
-/

namespace Comprehension.Double

/-! ### Relative errors -/

/-- The greatest relative error of rounding to a normal number. -/
def roundoff : ℚ := 1 / 2 ^ 53

/-- The magnitude of the least normal number. -/
def leastNormal : ℕ := 2 ^ 52

/-- A number is between two multiples of another one. -/
structure Within (a b x y : ℚ) : Prop where
  low : a * y ≤ x
  high : x ≤ b * y

namespace Within

variable {a b a' b' x y z x' y' : ℚ}

theorem refl (x : ℚ) : Within 1 1 x x := ⟨(one_mul x).le, (one_mul x).ge⟩

theorem trans (h : Within a b x y) (h' : Within a' b' y z) (ha : 0 ≤ a) (hb : 0 ≤ b) :
    Within (a * a') (b * b') x z := by
  refine ⟨?_, ?_⟩
  · rw [mul_assoc]
    exact (mul_le_mul_of_nonneg_left h'.low ha).trans h.low
  · rw [mul_assoc]
    exact h.high.trans (mul_le_mul_of_nonneg_left h'.high hb)

theorem mul (h : Within a b x y) (h' : Within a' b' x' y') (ha : 0 ≤ a) (ha' : 0 ≤ a')
    (hy : 0 ≤ y) (hy' : 0 ≤ y') : Within (a * a') (b * b') (x * x') (y * y') := by
  have hx : 0 ≤ x := (mul_nonneg ha hy).trans h.low
  have hx' : 0 ≤ x' := (mul_nonneg ha' hy').trans h'.low
  refine ⟨?_, ?_⟩
  · rw [mul_mul_mul_comm]
    exact mul_le_mul h.low h'.low (mul_nonneg ha' hy') hx
  · rw [mul_mul_mul_comm]
    exact mul_le_mul h.high h'.high hx' (hx.trans h.high)

theorem inv (h : Within a b x y) (ha : 0 < a) (hy : 0 < y) :
    Within b⁻¹ a⁻¹ x⁻¹ y⁻¹ := by
  have hx : 0 < x := (mul_pos ha hy).trans_le h.low
  refine ⟨?_, ?_⟩
  · rw [← mul_inv]
    exact inv_anti₀ hx h.high
  · rw [← mul_inv]
    exact inv_anti₀ (mul_pos ha hy) h.low

theorem div (h : Within a b x y) (h' : Within a' b' x' y') (ha : 0 ≤ a) (ha' : 0 < a')
    (hb' : 0 < b') (hy : 0 ≤ y) (hy' : 0 < y') : Within (a / b') (b / a') (x / x') (y / y') := by
  simp only [div_eq_mul_inv]
  exact h.mul (h'.inv ha' hy') ha (inv_nonneg.mpr hb'.le) hy (inv_nonneg.mpr hy'.le)

theorem mono (h : Within a b x y) (ha : a' ≤ a) (hb : b ≤ b') (hy : 0 ≤ y) : Within a' b' x y :=
  ⟨(mul_le_mul_of_nonneg_right ha hy).trans h.low, h.high.trans (mul_le_mul_of_nonneg_right hb hy)⟩

end Within

namespace IsNearest

variable {q q' : ℚ} {m m' : ℕ}

/-- Rounding to a normal number. -/
theorem within (h : IsNearest q m) (hq : 0 ≤ q) (hm : leastNormal ≤ m) :
    Within (1 - roundoff) (1 + roundoff) q (value m) := by
  obtain ⟨s, r, hsr, hs, -, hvalue, -⟩ := exists_value_eq m
  have hr : (2 ^ 52 : ℚ) ≤ r := by
    have hnat : 2 ^ 52 ≤ r := by
      rw [leastNormal] at hm
      omega
    exact_mod_cast hnat
  have hpos := gap_pos m
  obtain ⟨hlow, hhigh⟩ := abs_le.mp (h.abs_sub_le hq)
  have hgap : gap m / 2 ≤ roundoff * value m := by
    rw [hvalue, roundoff]
    nlinarith
  exact ⟨by linarith, by linarith⟩

/-- Numbers with a relative error of at most three roundings have magnitudes that are at most three
steps apart. -/
theorem le_add_three (h : IsNearest q m) (h' : IsNearest q' m') (hq : 0 ≤ q)
    (hle : q' ≤ (1 + 3 * roundoff) * q) : m' ≤ m + 3 := by
  by_contra! hlt
  obtain ⟨s, r, -, -, hr, hvalue, -⟩ := exists_value_eq m
  have hrq : (r : ℚ) ≤ 2 ^ 53 - 1 := by
    have hnat : r + 1 ≤ 2 ^ 53 := hr
    have hcast : ((r + 1 : ℕ) : ℚ) ≤ (2 ^ 53 : ℕ) := Nat.cast_le.mpr hnat
    push_cast at hcast
    linarith
  have hpos := gap_pos m
  have hnear := (abs_le.mp (h.abs_sub_le hq)).2
  have hmiddle := (abs_sub_le_abs_sub_iff (value_strictMono hlt)).1.mp (h'.le (m + 3))
  have hstep (k : ℕ) : value (m + k) + gap m ≤ value (m + k + 1) := by
    rw [value_succ]
    exact add_le_add_right (gap_mono (Nat.le_add_right m k)) _
  have hfour : value m + 4 * gap m ≤ value m' := by
    have := hstep 0
    have := hstep 1
    have := hstep 2
    have := hstep 3
    have := value_strictMono.monotone (show m + 3 + 1 ≤ m' from hlt)
    norm_num at *
    linarith
  have hthree : value m + 3 * gap m ≤ value (m + 3) := by
    have := hstep 0
    have := hstep 1
    have := hstep 2
    norm_num at *
    linarith
  rw [roundoff] at hle
  rw [hvalue] at *
  nlinarith

end IsNearest

/-! ### Steps of scaling -/

theorem cast_mul_div_two_pow (a b k : ℕ) :
    ((a * b : ℕ) : ℚ) / (1 <<< k : ℕ) / 2 ^ k = a / 2 ^ k * (b / 2 ^ k) := by
  rw [Nat.one_shiftLeft, Nat.cast_mul, Nat.cast_pow, Nat.cast_ofNat, div_div, mul_div_mul_comm]

theorem isNearest_product (m n : ℕ) : IsNearest (value m * value n) (product m n) := by
  have hden : 0 < 1 <<< 1074 := Nat.one_shiftLeft 1074 ▸ Nat.two_pow_pos 1074
  have h := isNearest_nearest (units m * units n) hden
  rw [cast_mul_div_two_pow] at h
  exact h

theorem units_pos {m : ℕ} (hm : m ≠ 0) : 0 < units m := by
  refine Nat.pos_of_ne_zero fun hzero => ?_
  have h := value_pos hm
  rw [value, hzero, Nat.cast_zero, zero_div] at h
  exact lt_irrefl 0 h

theorem isNearest_quotient (m : ℕ) {n : ℕ} (hn : n ≠ 0) :
    IsNearest (value m / value n) (quotient m n) := by
  have h := isNearest_nearest (units m <<< 1074) (units_pos hn)
  rw [cast_shiftLeft_div_two_pow] at h
  rwa [value, value, div_div_div_cancel_right₀ (pow_ne_zero 1074 two_ne_zero)]

theorem isNearest_tenPower (k : ℕ) : IsNearest (10 ^ k) (tenPower k) := by
  have h := isNearest_nearestTo ⟨1, k⟩
  rwa [Decimal.toRat_one, zpow_natCast] at h

theorem isNearest_natCast (n : ℕ) : IsNearest n (nearestTo ⟨n, 0⟩) := by
  have h := isNearest_nearestTo ⟨n, 0⟩
  rwa [Decimal.toRat, zpow_zero, mul_one] at h

/-- A number that is a value is rounded to it. -/
theorem IsNearest.value_eq {q : ℚ} {m k : ℕ} (h : IsNearest q m) (hq : value k = q) :
    value m = q := by
  rw [← hq] at h ⊢
  rw [h.unique (.self k)]

/-- Few digits are exact. -/
theorem value_nearestTo_natCast {n : ℕ} (hn : n ≤ 2 ^ 53) : value (nearestTo ⟨n, 0⟩) = n := by
  obtain ⟨m, hm⟩ := exists_value_eq_natCast hn
  exact (isNearest_natCast n).value_eq hm

/-- Digits that fit are finite. -/
theorem nearestTo_natCast_lt_infinite {n : ℕ} (hn : n ≤ 2 ^ 64) :
    nearestTo ⟨n, 0⟩ < infinite := by
  obtain ⟨k, hk⟩ := exists_units_eq_mul (a := 1) (by decide) (64 + 1074)
  have hvalue : value k = 2 ^ 64 := by
    rw [value, hk, div_eq_iff (pow_ne_zero 1074 two_ne_zero), one_mul, Nat.cast_pow, Nat.cast_ofNat,
      ← pow_add]
  have hle : nearestTo ⟨n, 0⟩ ≤ k := by
    refine (isNearest_natCast n).mono (.self k) ?_
    rw [hvalue]
    exact_mod_cast hn
  have hlt : value k < value infinite := by
    rw [hvalue, value_infinite]
    exact pow_lt_pow_right₀ one_lt_two (by decide)
  exact hle.trans_lt (value_strictMono.lt_iff_lt.mp hlt)

/-- Small powers of ten are exact. -/
theorem value_tenPower {k : ℕ} (hk : k ≤ 22) : value (tenPower k) = 10 ^ k := by
  have hfive : 5 ^ k ≤ 2 ^ 53 := (Nat.pow_le_pow_right (by decide) hk).trans (by decide)
  obtain ⟨m, hm⟩ := exists_units_eq_mul hfive (k + 1074)
  refine (isNearest_tenPower k).value_eq (k := m) ?_
  have hten : (10 : ℚ) ^ k = 5 ^ k * 2 ^ k := by
    rw [← mul_pow]
    norm_num
  rw [value, hm, div_eq_iff (pow_ne_zero 1074 two_ne_zero), hten, mul_assoc, ← pow_add,
    Nat.cast_mul, Nat.cast_pow, Nat.cast_pow, Nat.cast_ofNat, Nat.cast_ofNat]

theorem value_leastNormal : value leastNormal = 2 ^ 52 / 2 ^ 1074 := by
  have h : units (0 * 2 ^ 52 + 2 ^ 52) = 2 ^ 52 * 2 ^ 0 := units_mul_add (by decide) (.inl rfl)
  rw [Nat.zero_mul, Nat.zero_add, Nat.pow_zero, Nat.mul_one] at h
  rw [value, leastNormal, h, Nat.cast_pow, Nat.cast_ofNat]

/-- Numbers from the least normal value up are rounded to normal numbers. -/
theorem IsNearest.normal {q : ℚ} {m : ℕ} (h : IsNearest q m) (hq : value leastNormal ≤ q) :
    leastNormal ≤ m :=
  (IsNearest.self leastNormal).mono h hq

theorem value_leastNormal_le_one : value leastNormal ≤ 1 := by
  rw [value_leastNormal, div_le_one (pow_pos two_pos 1074)]
  exact pow_le_pow_right₀ one_le_two (by decide)

/-- Rounding a number from one up. -/
theorem IsNearest.within_of_one_le {q : ℚ} {m : ℕ} (h : IsNearest q m) (hq : 1 ≤ q) :
    Within (1 - roundoff) (1 + roundoff) q (value m) :=
  h.within (zero_le_one.trans hq) (h.normal (value_leastNormal_le_one.trans hq))

/-- Rounding a number that may be a little below the least normal value. -/
theorem IsNearest.within_of_least {q : ℚ} {m : ℕ} (h : IsNearest q m)
    (hq : value leastNormal ≤ 231 / 100 * q) :
    Within (1 - 5 / 2 * roundoff) (1 + 5 / 2 * roundoff) q (value m) := by
  have hq0 : 0 ≤ q := by linarith [value_nonneg leastNormal]
  rcases Nat.lt_or_ge m leastNormal with hlt | hge
  · have hgap : gap m / 2 = roundoff * value leastNormal := by
      obtain ⟨s, r, hm, hs, -, -, hgap⟩ := exists_value_eq m
      obtain rfl : s = 0 := by
        rw [leastNormal] at hlt
        omega
      rw [hgap, value_leastNormal, roundoff]
      generalize (2 : ℚ) ^ 1074 = b
      ring
    obtain ⟨hlow, hhigh⟩ := abs_le.mp (h.abs_sub_le hq0)
    rw [hgap, roundoff] at hlow hhigh
    rw [roundoff]
    constructor <;> linarith
  · exact (h.within hq0 hge).mono (by norm_num [roundoff]) (by norm_num [roundoff]) (value_nonneg m)

/-! ### Closeness -/

/-- Two numbers differ by at most three roundings. -/
structure Close (q w : ℚ) : Prop where
  le : q ≤ (1 + 3 * roundoff) * w
  ge : w ≤ (1 + 3 * roundoff) * q

theorem Within.close {a b q w : ℚ} (h : Within a b q w) (hw : 0 ≤ w)
    (ha : 1 ≤ (1 + 3 * roundoff) * a) (hb : b ≤ 1 + 3 * roundoff) : Close q w := by
  refine ⟨h.high.trans (mul_le_mul_of_nonneg_right hb hw), ?_⟩
  calc w = 1 * w := (one_mul w).symm
    _ ≤ (1 + 3 * roundoff) * a * w := mul_le_mul_of_nonneg_right ha hw
    _ = (1 + 3 * roundoff) * (a * w) := mul_assoc _ _ _
    _ ≤ (1 + 3 * roundoff) * q :=
      mul_le_mul_of_nonneg_left h.low (by norm_num [roundoff])

theorem within_tenPower (k : ℕ) :
    Within (1 - roundoff) (1 + roundoff) (10 ^ k) (value (tenPower k)) :=
  (isNearest_tenPower k).within_of_one_le (one_le_pow₀ (by norm_num))

theorem value_tenPower_pos (k : ℕ) : 0 < value (tenPower k) := by
  have h := (within_tenPower k).high
  have hpow : (0 : ℚ) < 10 ^ k := by positivity
  rw [roundoff] at h
  nlinarith

theorem tenPower_ne_zero (k : ℕ) : tenPower k ≠ 0 := by
  intro h
  have hpos := value_tenPower_pos k
  rw [h, value_zero] at hpos
  exact lt_irrefl 0 hpos

theorem within_of_mul_le {u p k : ℕ} (hlow : (10 * 2 ^ 53 - 1) * u ≤ 10 * 2 ^ 53 * (p * 2 ^ k))
    (hhigh : 10 * 2 ^ 53 * (p * 2 ^ k) ≤ (10 * 2 ^ 53 + 1) * u) :
    Within (1 - roundoff / 10) (1 + roundoff / 10) p (u / 2 ^ k) := by
  have hpow : (0 : ℚ) < 2 ^ k := by positivity
  have hlowq : ((10 * 2 ^ 53 - 1 : ℕ) * u : ℚ) ≤ 10 * 2 ^ 53 * (p * 2 ^ k) := by exact_mod_cast hlow
  have hhighq : (10 * 2 ^ 53 * (p * 2 ^ k) : ℚ) ≤ (10 * 2 ^ 53 + 1) * u := by exact_mod_cast hhigh
  have hfactor : ((10 * 2 ^ 53 - 1 : ℕ) : ℚ) = 10 * 2 ^ 53 - 1 := by norm_num
  rw [hfactor] at hlowq
  constructor
  · rw [← mul_div_assoc, div_le_iff₀ hpow, roundoff]
    linarith
  · rw [← mul_div_assoc, le_div_iff₀ hpow, roundoff]
    linarith

/-- The greatest power of ten is nearly exact. -/
theorem within_tenPower_limit :
    Within (1 - roundoff / 10) (1 + roundoff / 10) (10 ^ 308) (value (tenPower 308)) := by
  have h := within_of_mul_le (u := units (tenPower 308)) (p := 10 ^ 308) (k := 1074)
    (by decide +kernel) (by decide +kernel)
  rw [Nat.cast_pow, Nat.cast_ofNat] at h
  exact h

theorem mul_div_two_pow_le {p a b k : ℕ} (h : 10 * (p * 2 ^ a) ≤ b * 2 ^ k) :
    (p * (2 ^ a / 2 ^ k) : ℚ) ≤ b / 10 := by
  have hpow : (0 : ℚ) < 2 ^ k := by positivity
  have hq : (10 * (p * 2 ^ a) : ℚ) ≤ b * 2 ^ k := by exact_mod_cast h
  rw [← mul_div_assoc, div_le_div_iff₀ hpow (by norm_num)]
  linarith

/-- The least normal value is a little more than two divided by the greatest power of ten. -/
theorem value_leastNormal_mul_le : value leastNormal * value (tenPower 308) ≤ 231 / 100 := by
  have h := mul_div_two_pow_le (p := 10 ^ 308) (a := 52) (b := 23) (k := 1074) (by decide +kernel)
  rw [Nat.cast_pow, Nat.cast_ofNat, ← value_leastNormal, Nat.cast_ofNat] at h
  have hlow := mul_le_mul_of_nonneg_left within_tenPower_limit.low (value_nonneg leastNormal)
  rw [roundoff] at hlow
  generalize (10 : ℚ) ^ 308 = t at h hlow
  linarith

section

variable {n : ℕ} (hn : n ≠ 0)

include hn

theorem within_natCast : Within (1 - roundoff) (1 + roundoff) n (value (nearestTo ⟨n, 0⟩)) :=
  (isNearest_natCast n).within_of_one_le (by exact_mod_cast Nat.one_le_iff_ne_zero.mpr hn)

theorem nearestTo_natCast_ne_zero : nearestTo ⟨n, 0⟩ ≠ 0 := by
  intro hzero
  have h := (within_natCast hn).high
  rw [hzero, value_zero, mul_zero] at h
  exact hn (by exact_mod_cast le_antisymm h (Nat.cast_nonneg n))

/-- The product that is rounded is close to the product of the decimal. -/
theorem close_product (k : ℕ) :
    Close (n * 10 ^ k) (value (nearestTo ⟨n, 0⟩) * value (tenPower k)) :=
  ((within_natCast hn).mul (within_tenPower k) (by norm_num [roundoff]) (by norm_num [roundoff])
    (value_nonneg _) (value_nonneg _)).close (mul_nonneg (value_nonneg _) (value_nonneg _))
    (by norm_num [roundoff]) (by norm_num [roundoff])

/-- The quotient that is rounded is close to the quotient of the decimal. -/
theorem close_quotient (k : ℕ) :
    Close (n / 10 ^ k) (value (nearestTo ⟨n, 0⟩) / value (tenPower k)) :=
  ((within_natCast hn).div (within_tenPower k) (by norm_num [roundoff]) (by norm_num [roundoff])
    (by norm_num [roundoff]) (value_nonneg _) (value_tenPower_pos k)).close
    (div_nonneg (value_nonneg _) (value_nonneg _)) (by norm_num [roundoff])
    (by norm_num [roundoff])

/-- The first of two quotients.  It is normal unless the digits are one or two, and these are
exact. -/
theorem exists_within_quotient_limit :
    ∃ a b, 1 ≤ (1 + 3 * roundoff) * a ∧ b ≤ 1 + 3 * roundoff ∧ 0 < a ∧ 0 < b ∧
      Within a b (n / 10 ^ 308) (value (quotient (nearestTo ⟨n, 0⟩) (tenPower 308))) := by
  have hround := isNearest_quotient (nearestTo ⟨n, 0⟩) (tenPower_ne_zero 308)
  have hlimit := within_tenPower_limit
  have hpos := value_tenPower_pos 308
  have hleast : value leastNormal * value (tenPower 308) ≤ 231 / 100 := value_leastNormal_mul_le
  rcases Nat.lt_or_ge n 3 with hsmall | hlarge
  · have hexact : value (nearestTo ⟨n, 0⟩) = n := value_nearestTo_natCast (by omega)
    have hone : 1 / value (tenPower 308) ≤ value (nearestTo ⟨n, 0⟩) / value (tenPower 308) := by
      rw [hexact]
      gcongr
      exact_mod_cast Nat.one_le_iff_ne_zero.mpr hn
    have hstep := hround.within_of_least <| by
      rw [← le_div_iff₀ hpos] at hleast
      refine hleast.trans ?_
      rw [div_eq_mul_one_div]
      gcongr
    have hdiv := (Within.refl (value (nearestTo ⟨n, 0⟩))).div hlimit zero_le_one
      (by norm_num [roundoff]) (by norm_num [roundoff]) (value_nonneg _) hpos
    rw [hexact] at hdiv hstep
    exact ⟨_, _, by norm_num [roundoff], by norm_num [roundoff], by norm_num [roundoff],
      by norm_num [roundoff], hdiv.trans hstep (by norm_num [roundoff]) (by norm_num [roundoff])⟩
  · have hthree : (3 : ℚ) ≤ value (nearestTo ⟨n, 0⟩) := by
      have hmono := (isNearest_natCast 3).mono (isNearest_natCast n) (by exact_mod_cast hlarge)
      have hvalue := value_strictMono.monotone hmono
      rwa [value_nearestTo_natCast (by decide), Nat.cast_ofNat] at hvalue
    have hnormal : value leastNormal ≤ value (nearestTo ⟨n, 0⟩) / value (tenPower 308) := by
      rw [le_div_iff₀ hpos]
      linarith
    have hstep := hround.within (div_nonneg (value_nonneg _) hpos.le) (hround.normal hnormal)
    have hdiv := (within_natCast hn).div hlimit (by norm_num [roundoff]) (by norm_num [roundoff])
      (by norm_num [roundoff]) (value_nonneg _) hpos
    exact ⟨_, _, by norm_num [roundoff], by norm_num [roundoff], by norm_num [roundoff],
      by norm_num [roundoff], hdiv.trans hstep (by norm_num [roundoff]) (by norm_num [roundoff])⟩

/-- The second of two quotients that is rounded is close to the quotient of the decimal. -/
theorem close_quotient_quotient {k : ℕ} (hk : k ≤ 22) :
    Close (n / 10 ^ 308 / 10 ^ k)
      (value (quotient (nearestTo ⟨n, 0⟩) (tenPower 308)) / value (tenPower k)) := by
  obtain ⟨a, b, ha, hb, ha0, hb0, hfirst⟩ := exists_within_quotient_limit hn
  have hpow : (0 : ℚ) < 10 ^ k := by positivity
  have hdiv := hfirst.div (.refl (10 ^ k)) ha0.le one_pos one_pos (value_nonneg _) hpow
  rw [div_one, div_one] at hdiv
  rw [value_tenPower hk]
  exact hdiv.close (div_nonneg (value_nonneg _) hpow.le) ha hb

end

/-! ### Runs of scaling -/

theorem scale?_zero (e : ℤ) : scale? 0 e = some 0 := by
  rw [scale?, if_pos rfl]

section

variable {m : ℕ} (hm : m ≠ 0) {e : ℤ}

include hm

theorem scale?_of_lt (he : e < -308) :
    scale? m e = scale? (quotient m (tenPower 308)) (e + 308) := by
  rw [scale?, if_neg hm, if_pos (show e < -powerLimit from he)]
  rfl

theorem scale?_of_neg (hlow : -308 ≤ e) (he : e < 0) :
    scale? m e = some (quotient m (tenPower e.natAbs)) := by
  rw [scale?, if_neg hm, if_neg (show ¬ e < -powerLimit from not_lt.mpr hlow), if_pos he]

theorem scale?_of_nonneg (he : 0 ≤ e) (hhigh : e ≤ 308) :
    scale? m e = if product m (tenPower e.natAbs) < infinite
      then some (product m (tenPower e.natAbs)) else none := by
  rw [scale?, if_neg hm, if_neg (show ¬ e < -powerLimit by rw [powerLimit]; omega),
    if_neg (not_lt.mpr he), if_neg (show ¬ powerLimit < e from not_lt.mpr hhigh)]

end

/-- A power of ten at or above one. -/
theorem toRat_of_nonneg {d : Decimal} (he : 0 ≤ d.exponent) :
    d.toRat = d.digits * 10 ^ d.exponent.natAbs := by
  rw [Decimal.toRat, ← zpow_natCast, Int.natCast_natAbs, abs_of_nonneg he]

/-- A power of ten below one. -/
theorem toRat_of_neg {d : Decimal} (he : d.exponent ≤ 0) :
    d.toRat = d.digits / 10 ^ d.exponent.natAbs := by
  rw [Decimal.toRat, ← zpow_natCast, Int.natCast_natAbs, abs_of_nonpos he, zpow_neg, div_inv_eq_mul]

/-- Scaling rounds a number that is close to the decimal, and has no result only where the rounded
number is infinite. -/
theorem exists_isNearest_scale? {d : Decimal} (hd : d.digits ≠ 0) (hlow : -324 ≤ d.exponent)
    (hhigh : d.exponent ≤ 308) :
    ∃ w p, IsNearest w p ∧ Close d.toRat w ∧
      (scale? (nearestTo ⟨d.digits, 0⟩) d.exponent = some p ∨
        scale? (nearestTo ⟨d.digits, 0⟩) d.exponent = none ∧ infinite ≤ p) := by
  have hm := nearestTo_natCast_ne_zero hd
  rcases lt_or_ge d.exponent (-308) with hsmall | hlarge
  · have hfirst : quotient (nearestTo ⟨d.digits, 0⟩) (tenPower 308) ≠ 0 := by
      obtain ⟨a, b, -, -, -, -, hfirst⟩ := exists_within_quotient_limit hd
      intro hzero
      have hdigits : (0 : ℚ) < d.digits := Nat.cast_pos.mpr (Nat.pos_of_ne_zero hd)
      have hpow : (0 : ℚ) < 10 ^ 308 := pow_pos (by norm_num) 308
      have hhigh := hfirst.high
      rw [hzero, value_zero, mul_zero] at hhigh
      exact absurd (div_pos hdigits hpow) (not_lt.mpr hhigh)
    refine ⟨_, _, isNearest_quotient (quotient (nearestTo ⟨d.digits, 0⟩) (tenPower 308))
      (tenPower_ne_zero (d.exponent + 308).natAbs), ?_, .inl ?_⟩
    · have h := close_quotient_quotient hd (k := (d.exponent + 308).natAbs) (by omega)
      rw [div_div, ← pow_add, show 308 + (d.exponent + 308).natAbs = d.exponent.natAbs by omega,
        ← toRat_of_neg (by omega)] at h
      exact h
    · rw [scale?_of_lt hm hsmall, scale?_of_neg hfirst (by omega) (by omega)]
  rcases lt_or_ge d.exponent 0 with hneg | hnonneg
  · refine ⟨_, _, isNearest_quotient (nearestTo ⟨d.digits, 0⟩)
      (tenPower_ne_zero d.exponent.natAbs), ?_, .inl ?_⟩
    · rw [toRat_of_neg hneg.le]
      exact close_quotient hd _
    · exact scale?_of_neg hm hlarge hneg
  · refine ⟨_, _, isNearest_product (nearestTo ⟨d.digits, 0⟩) (tenPower d.exponent.natAbs), ?_, ?_⟩
    · rw [toRat_of_nonneg hnonneg]
      exact close_product hd _
    · rw [scale?_of_nonneg hm hnonneg hhigh]
      split_ifs with hfinite
      · exact .inl rfl
      · exact .inr ⟨rfl, not_lt.mp hfinite⟩

/-- A scaled decimal is at most three steps from the magnitude it rounds to. -/
theorem scale?_le_add_three {d : Decimal} {m : ℕ} (hm : IsNearest d.toRat m) (hd : d.digits ≠ 0)
    (hlow : -324 ≤ d.exponent) (hhigh : d.exponent ≤ 308) :
    (∃ p, scale? (nearestTo ⟨d.digits, 0⟩) d.exponent = some p ∧ p ≤ m + 3 ∧ m ≤ p + 3) ∨
      scale? (nearestTo ⟨d.digits, 0⟩) d.exponent = none ∧ infinite ≤ m + 3 := by
  obtain ⟨w, p, hw, hclose, hscale⟩ := exists_isNearest_scale? hd hlow hhigh
  have hw0 : 0 ≤ w := by
    have h := hclose.le
    have hnonneg := d.toRat_nonneg
    rw [roundoff] at h
    linarith
  have hup : p ≤ m + 3 := hm.le_add_three hw d.toRat_nonneg hclose.ge
  have hdown : m ≤ p + 3 := hw.le_add_three hm hw0 hclose.le
  rcases hscale with hsome | ⟨hnone, hinfinite⟩
  · exact .inl ⟨p, hsome, hup, hdown⟩
  · exact .inr ⟨hnone, hinfinite.trans hup⟩

theorem one_le_value_tenPower (k : ℕ) : 1 ≤ value (tenPower k) := by
  have hone : value (tenPower 0) = 1 := value_tenPower (Nat.zero_le 22)
  have hmono := (isNearest_tenPower 0).mono (isNearest_tenPower k)
    (pow_le_pow_right₀ (by norm_num) (Nat.zero_le k))
  exact hone ▸ value_strictMono.monotone hmono

/-- Division by a power of ten does not make a magnitude greater. -/
theorem quotient_tenPower_le (m k : ℕ) : quotient m (tenPower k) ≤ m :=
  (isNearest_quotient m (tenPower_ne_zero k)).mono (.self m)
    (div_le_self (value_nonneg m) (one_le_value_tenPower k))

/-- A finite magnitude is scaled to a finite one or not at all. -/
theorem scale?_lt_infinite {m p : ℕ} {e : ℤ} (hm : m < infinite) (h : scale? m e = some p) :
    p < infinite := by
  induction m, e using scale?.induct with
  | case1 e =>
    rw [scale?_zero] at h
    exact Option.some.inj h ▸ hm
  | case2 m e hzero hlt ih =>
    rw [scale?, if_neg hzero, if_pos hlt] at h
    exact ih ((quotient_tenPower_le m powerLimit).trans_lt hm) h
  | case3 m e hzero hlt hneg =>
    rw [scale?, if_neg hzero, if_neg hlt, if_pos hneg] at h
    exact Option.some.inj h ▸ (quotient_tenPower_le m _).trans_lt hm
  | case4 m e hzero hlt hneg hgreat =>
    rw [scale?, if_neg hzero, if_neg hlt, if_neg hneg, if_pos hgreat] at h
    cases h
  | case5 m e hzero hlt hneg hgreat p' hfinite =>
    rw [scale?, if_neg hzero, if_neg hlt, if_neg hneg, if_neg hgreat] at h
    simp only [p', hfinite, if_true, Option.some.injEq] at h
    exact h ▸ hfinite
  | case6 m e hzero hlt hneg hgreat p' hfinite =>
    rw [scale?, if_neg hzero, if_neg hlt, if_neg hneg, if_neg hgreat] at h
    simp only [p', hfinite, if_false] at h
    cases h

/-- Exact digits with a small power of ten are scaled without an error. -/
theorem scale?_of_exact {d : Decimal} {k m : ℕ} (hm : IsNearest d.toRat m) (hfinite : m < infinite)
    (hd : value k = d.digits) (he : d.exponent.natAbs ≤ 22) :
    scale? (nearestTo ⟨d.digits, 0⟩) d.exponent = some m := by
  have hvalue := (isNearest_natCast d.digits).value_eq hd
  have hpower := value_tenPower he
  by_cases hzero : d.digits = 0
  · rw [hzero, Nat.cast_zero, ← value_zero] at hvalue
    rw [hzero, value_strictMono.injective hvalue, scale?_zero]
    rw [Decimal.toRat_eq_zero_iff.mpr hzero, ← value_zero] at hm
    rw [hm.unique (.self 0)]
  have hne : nearestTo ⟨d.digits, 0⟩ ≠ 0 := by
    intro h
    rw [h, value_zero] at hvalue
    exact hzero (by exact_mod_cast hvalue.symm)
  rcases lt_or_ge d.exponent 0 with hneg | hnonneg
  · have hround := isNearest_quotient (nearestTo ⟨d.digits, 0⟩) (tenPower_ne_zero d.exponent.natAbs)
    rw [hvalue, hpower, ← toRat_of_neg hneg.le] at hround
    rw [scale?_of_neg hne (by omega) hneg, hround.unique hm]
  · have hround := isNearest_product (nearestTo ⟨d.digits, 0⟩) (tenPower d.exponent.natAbs)
    rw [hvalue, hpower, ← toRat_of_nonneg hnonneg] at hround
    rw [scale?_of_nonneg hne hnonneg (by omega), hround.unique hm, if_pos hfinite]

end Comprehension.Double
