import Comprehension.Double.Rounding
import Mathlib.Algebra.Order.Field.Rat
import Mathlib.Algebra.Order.Archimedean.Basic
import Mathlib.Data.Nat.Cast.Order.Field
import Mathlib.Tactic.FieldSimp
import Mathlib.Tactic.GCongr
import Mathlib.Tactic.Linarith
import Mathlib.Tactic.NormNum
import Mathlib.Tactic.Ring

/-!
# Rounding to the nearest double

Magnitudes and decimals have rational values, and the values of magnitudes grow by gaps that never
shrink.  A decimal is rounded to the one magnitude whose value is nearest to it, and to the even
magnitude where two values are equally near.  Rounding therefore keeps the order of numbers, and
what lies between two numbers with the same nearest magnitude has it too.

## Main definitions

* `Decimal.toRat`, `Double.value`: the rational numbers of decimals and magnitudes.
* `Double.gap`: how far the value of the next magnitude is.
* `Double.IsNearest`: the magnitude nearest to a number.

## Main results

* `Double.units_mul_add`, `Double.exists_value_eq`: values as whole numbers of a power of two.
* `Double.IsNearest.mono`, `Double.IsNearest.unique`: rounding keeps the order.
* `Double.nearestTo_eq_iff`: the magnitude that a decimal is rounded to.
-/

namespace Comprehension

/-- The rational number of a decimal. -/
def Decimal.toRat (d : Decimal) : ℚ := d.digits * 10 ^ d.exponent

namespace Double

/-- The absolute value of the numbers with a magnitude. -/
def value (m : ℕ) : ℚ := units m / 2 ^ 1074

/-- A magnitude is nearest to a number: none has a nearer value, and it is even where another one
has a value that is as near. -/
structure IsNearest (q : ℚ) (m : ℕ) : Prop where
  le (k : ℕ) : |q - value m| ≤ |q - value k|
  even (k : ℕ) : k ≠ m → |q - value m| = |q - value k| → Even m

/-! ### Values -/

/-- A whole part of at most fifty-three digits, doubled `s` times. -/
theorem units_mul_add {s r : ℕ} (hr : r ≤ 2 ^ 53) (hs : s = 0 ∨ 2 ^ 52 ≤ r) :
    units (s * 2 ^ 52 + r) = r * 2 ^ s := by
  simp only [units, Nat.shiftLeft_eq, Nat.shiftRight_eq_div_pow, Nat.one_mul]
  rcases Nat.lt_or_ge r (2 ^ 52) with hlt | hge
  · obtain rfl : s = 0 := hs.resolve_right (Nat.not_le.mpr hlt)
    rw [if_pos (by omega)]
    omega
  · rw [if_neg (by omega)]
    rcases Nat.lt_or_ge r (2 ^ 53) with hlt | hge'
    · have hmod : (s * 2 ^ 52 + r) % 2 ^ 52 = r - 2 ^ 52 := by omega
      have hdiv : (s * 2 ^ 52 + r) / 2 ^ 52 - 1 = s := by omega
      rw [hmod, hdiv, Nat.add_sub_cancel' hge]
    · obtain rfl : r = 2 ^ 53 := Nat.le_antisymm hr hge'
      have hmod : (s * 2 ^ 52 + 2 ^ 53) % 2 ^ 52 = 0 := by omega
      have hdiv : (s * 2 ^ 52 + 2 ^ 53) / 2 ^ 52 - 1 = s + 1 := by omega
      rw [hmod, hdiv, Nat.add_zero, Nat.pow_succ]
      ring

/-- The value of a magnitude and of the next one, as whole numbers of the same power of two. -/
theorem exists_units_eq (m : ℕ) :
    ∃ s r, m = s * 2 ^ 52 + r ∧ (s = 0 ∨ 2 ^ 52 ≤ r) ∧ r < 2 ^ 53 ∧ units m = r * 2 ^ s ∧
      units (m + 1) = (r + 1) * 2 ^ s := by
  obtain ⟨s, r, rfl, hs, hr⟩ : ∃ s r, m = s * 2 ^ 52 + r ∧ (s = 0 ∨ 2 ^ 52 ≤ r) ∧ r < 2 ^ 53 := by
    rcases Nat.lt_or_ge m (2 ^ 53) with hlt | hge
    · exact ⟨0, m, by omega, .inl rfl, hlt⟩
    · refine ⟨m / 2 ^ 52 - 1, m % 2 ^ 52 + 2 ^ 52, ?_, .inr ?_, ?_⟩ <;> omega
  refine ⟨s, r, rfl, hs, hr, units_mul_add hr.le hs, ?_⟩
  rw [Nat.add_assoc, units_mul_add hr (hs.imp_right fun h => h.trans (Nat.le_succ r))]

/-- A whole number of up to fifty-three digits, doubled as often as one likes, is a value. -/
theorem exists_units_eq_mul {a : ℕ} (ha : a ≤ 2 ^ 53) (s : ℕ) : ∃ m, units m = a * 2 ^ s := by
  induction s generalizing a with
  | zero => exact ⟨0 * 2 ^ 52 + a, units_mul_add ha (.inl rfl)⟩
  | succ s ih =>
    rcases Nat.lt_or_ge a (2 ^ 52) with hlt | hge
    · obtain ⟨m, hm⟩ := ih (a := 2 * a) (by omega)
      exact ⟨m, hm.trans (by rw [Nat.pow_succ]; ring)⟩
    · exact ⟨_, units_mul_add ha (.inr hge)⟩

/-- How far the value of the next magnitude is. -/
def gap (m : ℕ) : ℚ := value (m + 1) - value m

/-- A value is a whole number of gaps, and a gap is a power of two. -/
theorem exists_value_eq (m : ℕ) :
    ∃ s r : ℕ, m = s * 2 ^ 52 + r ∧ (s = 0 ∨ 2 ^ 52 ≤ r) ∧ r < 2 ^ 53 ∧
      value m = r * gap m ∧ gap m = 2 ^ s / 2 ^ 1074 := by
  obtain ⟨s, r, hm, hs, hr, hunits, hsucc⟩ := exists_units_eq m
  have hgap : gap m = 2 ^ s / 2 ^ 1074 := by
    rw [gap, value, value, hunits, hsucc, ← sub_div]
    push_cast
    congr 1
    ring
  refine ⟨s, r, hm, hs, hr, ?_, hgap⟩
  rw [hgap, value, hunits, Nat.cast_mul, Nat.cast_pow, Nat.cast_ofNat, mul_div_assoc]

theorem gap_pos (m : ℕ) : 0 < gap m := by
  obtain ⟨s, r, -, -, -, -, hgap⟩ := exists_value_eq m
  rw [hgap]
  exact div_pos (pow_pos two_pos s) (pow_pos two_pos 1074)

theorem value_succ (m : ℕ) : value (m + 1) = value m + gap m := by
  rw [gap]
  ring

theorem value_strictMono : StrictMono value :=
  strictMono_nat_of_lt_succ fun m => by
    rw [value_succ]
    exact lt_add_of_pos_right _ (gap_pos m)

theorem value_zero : value 0 = 0 := by
  simp [value, units]

theorem value_nonneg (m : ℕ) : 0 ≤ value m := by
  rw [← value_zero]
  exact value_strictMono.monotone (Nat.zero_le m)

theorem value_pos {m : ℕ} (hm : m ≠ 0) : 0 < value m := by
  rw [← value_zero]
  exact value_strictMono (Nat.pos_of_ne_zero hm)

theorem value_infinite : value infinite = 2 ^ 1024 := by
  have hinfinite : infinite = 2046 * 2 ^ 52 + 2 ^ 52 := by decide
  rw [value, hinfinite, units_mul_add (by decide) (.inr le_rfl),
    div_eq_iff (pow_ne_zero 1074 two_ne_zero), Nat.cast_mul, Nat.cast_pow, Nat.cast_pow,
    Nat.cast_ofNat, ← pow_add, ← pow_add]

/-- Every whole number of at most fifty-three binary digits is a value. -/
theorem exists_value_eq_natCast {a : ℕ} (ha : a ≤ 2 ^ 53) : ∃ m, value m = a := by
  obtain ⟨m, hm⟩ := exists_units_eq_mul ha 1074
  refine ⟨m, ?_⟩
  rw [value, hm, div_eq_iff (pow_ne_zero 1074 two_ne_zero), Nat.cast_mul, Nat.cast_pow,
    Nat.cast_ofNat]

/-- The gaps do not shrink. -/
theorem gap_mono : Monotone gap := by
  intro k m hkm
  obtain ⟨s, r, hk, hs, hr, -, hgap⟩ := exists_value_eq k
  obtain ⟨s', r', hm, hs', hr', -, hgap'⟩ := exists_value_eq m
  have hle : s ≤ s' := by omega
  rw [hgap, hgap']
  gcongr
  norm_num

/-! ### Rounding a quotient -/

/-- A quotient is a whole part and a part below one, which comes from the remainder. -/
theorem cast_div_eq_add (num : ℕ) {den : ℕ} (hden : 0 < den) :
    (num / den : ℚ) = (num / den : ℕ) + (num % den : ℕ) / den ∧
      (0 : ℚ) ≤ (num % den : ℕ) / den ∧ ((num % den : ℕ) / den : ℚ) < 1 := by
  have hdenq : (0 : ℚ) < den := Nat.cast_pos.mpr hden
  refine ⟨?_, by positivity, ?_⟩
  · rw [eq_comm, eq_div_iff hdenq.ne', add_mul, div_mul_cancel₀ _ hdenq.ne']
    exact_mod_cast Nat.div_add_mod' num den
  · rw [div_lt_one hdenq]
    exact_mod_cast Nat.mod_lt num hden

/-- A rounded quotient is at most a half away from the quotient, and a half only where it is
even. -/
theorem abs_sub_roundHalfEven_le (num : ℕ) {den : ℕ} (hden : 0 < den) :
    |(num / den : ℚ) - roundHalfEven num den| ≤ 1 / 2 ∧
      (|(num / den : ℚ) - roundHalfEven num den| = 1 / 2 → Even (roundHalfEven num den)) := by
  have hdenq : (0 : ℚ) < den := Nat.cast_pos.mpr hden
  obtain ⟨hnum, hnonneg, hlt⟩ := cast_div_eq_add num hden
  have hhalf : (2 * (num % den) < den ↔ (num % den : ℕ) / (den : ℚ) < 1 / 2) ∧
      (den < 2 * (num % den) ↔ 1 / 2 < (num % den : ℕ) / (den : ℚ)) := by
    rw [div_lt_div_iff₀ hdenq two_pos, div_lt_div_iff₀ two_pos hdenq, one_mul, mul_comm 2]
    exact ⟨by exact_mod_cast Iff.rfl, by exact_mod_cast Iff.rfl⟩
  rw [hnum, roundHalfEven]
  generalize ((num % den : ℕ) : ℚ) / den = t at *
  simp only [hhalf]
  split_ifs with hbelow habove
  · rw [add_sub_cancel_left, abs_of_nonneg hnonneg]
    exact ⟨hbelow.le, fun h => absurd h hbelow.ne⟩
  · have hneg : ((num / den : ℕ) : ℚ) + t - (num / den + 1 : ℕ) = -(1 - t) := by
      push_cast
      ring
    rw [hneg, abs_neg, abs_of_pos (by linarith)]
    exact ⟨by linarith, fun h => absurd h (by linarith)⟩
  · obtain rfl : t = 1 / 2 := le_antisymm (not_lt.mp habove) (not_lt.mp hbelow)
    rcases Nat.mod_two_eq_zero_or_one (num / den) with heven | hodd
    · rw [heven, add_zero, add_sub_cancel_left]
      exact ⟨by norm_num, fun _ => Nat.even_iff.mpr heven⟩
    · have hneg : ((num / den : ℕ) : ℚ) + 1 / 2 - (num / den + 1 : ℕ) = -(1 / 2) := by
        push_cast
        ring
      rw [hodd, hneg, abs_neg]
      exact ⟨by norm_num, fun _ => Nat.even_add_one.mpr (by simp [Nat.even_iff, hodd])⟩

/-- A rounded quotient and the quotient without its remainder. -/
theorem div_le_roundHalfEven (num den : ℕ) :
    num / den ≤ roundHalfEven num den ∧ roundHalfEven num den ≤ num / den + 1 := by
  simp only [roundHalfEven]
  split_ifs <;> omega

/-- The doublings and the digits of the nearest magnitude. -/
theorem exists_nearest_eq (num den : ℕ) :
    ∃ s, nearest num den = s * 2 ^ 52 + roundHalfEven num (den * 2 ^ s) ∧
      num / (den * 2 ^ s) < 2 ^ 53 ∧ (s = 0 ∨ 2 ^ 52 ≤ num / (den * 2 ^ s)) := by
  refine ⟨(num / den).log2 - 52, ?_, ?_, ?_⟩
  · simp only [nearest, Nat.shiftLeft_eq]
  · rw [← Nat.div_div_eq_div_mul, Nat.div_lt_iff_lt_mul (Nat.two_pow_pos _), ← Nat.pow_add]
    exact Nat.lt_log2_self.trans_le (Nat.pow_le_pow_right Nat.two_pos (by omega))
  · rcases Nat.lt_or_ge 52 (num / den).log2 with hlt | hge
    · right
      have hne : num / den ≠ 0 := by
        intro h
        rw [h, Nat.log2_zero] at hlt
        omega
      rw [← Nat.div_div_eq_div_mul, Nat.le_div_iff_mul_le (Nat.two_pow_pos _), ← Nat.pow_add]
      refine le_trans (Nat.pow_le_pow_right Nat.two_pos ?_) (Nat.log2_self_le hne)
      omega
    · left
      omega

/-- A magnitude is nearest to a number that is at most half a gap away, where the magnitudes above
are at least a gap away, and those below are too or the number is not below the value. -/
theorem IsNearest.of_abs_le {q c : ℚ} {m : ℕ} (hq : |q - value m| ≤ c / 2)
    (htie : |q - value m| = c / 2 → Even m) (habove : value m + c ≤ value (m + 1))
    (hbelow : ∀ k, m = k + 1 → value k ≤ value m - c ∨ value m ≤ q) : IsNearest q m := by
  obtain ⟨hlower, hupper⟩ := abs_le.mp hq
  have hlt {k : ℕ} (hk : k ≠ m) : |q - value m| ≤ |q - value k| ∧
      (|q - value m| = |q - value k| → |q - value m| = c / 2) := by
    rcases Nat.lt_or_gt_of_ne hk with hkm | hmk
    · obtain ⟨j, rfl⟩ := Nat.exists_eq_add_one_of_ne_zero (Nat.ne_zero_of_lt hkm)
      have hkj : value k ≤ value j := value_strictMono.monotone (Nat.lt_succ_iff.mp hkm)
      have hjm : value j < value (j + 1) := value_strictMono (Nat.lt_succ_self j)
      rcases hbelow j rfl with hfar | hge
      · rw [abs_of_nonneg (a := q - value k) (by linarith)]
        exact ⟨by linarith, fun h => by linarith⟩
      · rw [abs_of_nonneg (by linarith), abs_of_nonneg (by linarith)]
        exact ⟨by linarith, fun h => by linarith⟩
    · have hmk' : value (m + 1) ≤ value k := value_strictMono.monotone hmk
      rw [abs_of_nonpos (a := q - value k) (by linarith)]
      exact ⟨by linarith, fun h => by linarith⟩
  refine ⟨fun k => ?_, fun k hk h => htie ((hlt hk).2 h)⟩
  by_cases hk : k = m
  · rw [hk]
  · exact (hlt hk).1

/-- The magnitude that a quotient of units is rounded to is nearest to it. -/
theorem isNearest_nearest (num : ℕ) {den : ℕ} (hden : 0 < den) :
    IsNearest (num / den / 2 ^ 1074) (nearest num den) := by
  obtain ⟨s, hm, hlt, hge⟩ := exists_nearest_eq num den
  have hscaled : 0 < den * 2 ^ s := Nat.mul_pos hden (Nat.two_pow_pos s)
  obtain ⟨habs, htie⟩ := abs_sub_roundHalfEven_le num hscaled
  obtain ⟨hfloor, hceil⟩ := div_le_roundHalfEven num (den * 2 ^ s)
  generalize hr : roundHalfEven num (den * 2 ^ s) = r at *
  generalize hc : (2 ^ s / 2 ^ 1074 : ℚ) = c
  have hcpos : 0 < c := hc ▸ div_pos (pow_pos two_pos s) (pow_pos two_pos 1074)
  have hq : (num / den / 2 ^ 1074 : ℚ) = num / (den * 2 ^ s : ℕ) * c := by
    rw [← hc, Nat.cast_mul, Nat.cast_pow, Nat.cast_ofNat, ← div_div, ← mul_div_assoc,
      div_mul_cancel₀ _ (pow_ne_zero s two_ne_zero)]
  have hvalue {r' : ℕ} (hr' : r' ≤ 2 ^ 53) (hs : s = 0 ∨ 2 ^ 52 ≤ r') :
      value (s * 2 ^ 52 + r') = r' * c := by
    rw [value, units_mul_add hr' hs, ← hc, Nat.cast_mul, Nat.cast_pow, Nat.cast_ofNat,
      mul_div_assoc]
  have hr53 : r ≤ 2 ^ 53 := by omega
  have hr52 : s = 0 ∨ 2 ^ 52 ≤ r := hge.imp_right fun h => h.trans hfloor
  rw [hq, hm]
  refine .of_abs_le (c := c) ?_ (fun h => ?_) ?_ fun k hk => ?_
  · rw [hvalue hr53 hr52, ← sub_mul, abs_mul, abs_of_pos hcpos]
    calc _ ≤ 1 / 2 * c := mul_le_mul_of_nonneg_right habs hcpos.le
      _ = c / 2 := by ring
  · rw [hvalue hr53 hr52, ← sub_mul, abs_mul, abs_of_pos hcpos] at h
    have heven : Even r := htie (mul_right_cancel₀ hcpos.ne' (h.trans (by ring)))
    exact (Nat.even_mul.mpr (.inr (by decide))).add heven
  · rw [hvalue hr53 hr52]
    rcases hr53.lt_or_eq with hlt | rfl
    · rw [add_assoc, hvalue hlt (hr52.imp_right fun h => h.trans (Nat.le_succ r))]
      push_cast
      linarith
    -- The digits have become too many, and the next gap is at least as great as the one before.
    · have hbefore : value (s * 2 ^ 52 + (2 ^ 53 - 1)) = ((2 ^ 53 - 1 : ℕ) : ℚ) * c :=
        hvalue (by omega) (.inr (by omega))
      have hmono := gap_mono (Nat.le_add_right (s * 2 ^ 52 + (2 ^ 53 - 1)) 1)
      rw [gap, gap, add_assoc (s * 2 ^ 52), Nat.sub_add_cancel (by omega), hvalue hr53 hr52,
        hbefore] at hmono
      push_cast at hmono ⊢
      linarith
  · by_cases hsmall : s = 0 ∨ 2 ^ 52 < r
    · obtain ⟨r, rfl⟩ : ∃ r', r = r' + 1 := ⟨r - 1, by omega⟩
      obtain rfl : k = s * 2 ^ 52 + r := by omega
      left
      rw [hvalue hr53 hr52, hvalue (by omega) (by omega)]
      push_cast
      linarith
    -- A quotient with the least digits is not rounded up.
    · right
      obtain rfl : r = 2 ^ 52 := by omega
      rw [hvalue hr53 hr52]
      refine mul_le_mul_of_nonneg_right ?_ hcpos.le
      exact (Nat.cast_le.mpr (hge.resolve_left (by omega))).trans Nat.cast_div_le

/-! ### Nearest magnitudes -/

/-- The nearer of two numbers is that on the same side of their middle. -/
theorem abs_sub_le_abs_sub_iff {a b q : ℚ} (h : a < b) :
    (|q - b| ≤ |q - a| ↔ a + b ≤ 2 * q) ∧ (|q - a| ≤ |q - b| ↔ 2 * q ≤ a + b) := by
  simp only [← sq_le_sq]
  refine ⟨⟨fun hle => ?_, fun hle => ?_⟩, ⟨fun hle => ?_, fun hle => ?_⟩⟩ <;> nlinarith

namespace IsNearest

variable {q q' : ℚ} {m m' : ℕ}

/-- A greater number has no smaller nearest magnitude. -/
theorem mono (h : IsNearest q m) (h' : IsNearest q' m') (hq : q ≤ q') : m ≤ m' := by
  by_contra hlt
  rw [not_le] at hlt
  have hvalue : value m' < value m := value_strictMono hlt
  have hlow := (abs_sub_le_abs_sub_iff hvalue).1.mp (h.le m')
  have hhigh := (abs_sub_le_abs_sub_iff hvalue).2.mp (h'.le m)
  -- Both numbers are in the middle of the two values, so both magnitudes are even.
  obtain rfl : q = q' := by linarith
  have htie : |q - value m| = |q - value m'| := le_antisymm (h.le m') (h'.le m)
  have heven := h.even m' hlt.ne htie
  have heven' := h'.even m hlt.ne' htie.symm
  have hbetween : m' + 1 < m := by
    refine Nat.lt_of_le_of_ne hlt fun hsucc => ?_
    rw [← hsucc] at heven
    exact Nat.even_add_one.mp heven heven'
  have hnear := (abs_sub_le_abs_sub_iff (value_strictMono hbetween)).1.mp (h.le (m' + 1))
  have hstrict : value m' < value (m' + 1) := value_strictMono (Nat.lt_succ_self m')
  linarith

theorem unique (h : IsNearest q m) (h' : IsNearest q m') : m = m' :=
  le_antisymm (h.mono h' le_rfl) (h'.mono h le_rfl)

/-- A number between two others with the same nearest magnitude has it too. -/
theorem eq_of_between {p : ℚ} {n : ℕ} (h : IsNearest q m) (h' : IsNearest q' m)
    (hp : IsNearest p n) (hle : q ≤ p) (hge : p ≤ q') : n = m :=
  le_antisymm (hp.mono h' hge) (h.mono hp hle)

/-- Every magnitude is nearest to its value. -/
theorem self (m : ℕ) : IsNearest (value m) m := by
  have hzero : |value m - value m| = 0 := by rw [sub_self, abs_zero]
  refine ⟨fun k => hzero ▸ abs_nonneg _, fun k hk h => ?_⟩
  have hvalue : value m = value k := sub_eq_zero.mp (abs_eq_zero.mp (h.symm.trans hzero))
  exact absurd (value_strictMono.injective hvalue).symm hk

/-- The nearest value is at most half a gap away. -/
theorem abs_sub_le (h : IsNearest q m) (hq : 0 ≤ q) : |q - value m| ≤ gap m / 2 := by
  have habove := (abs_sub_le_abs_sub_iff (value_strictMono m.lt_succ_self)).2.mp (h.le (m + 1))
  rw [Nat.succ_eq_add_one, value_succ] at habove
  have hpos := gap_pos m
  refine abs_le.mpr ⟨?_, by linarith⟩
  rcases Nat.eq_zero_or_pos m with rfl | hm
  · rw [value_zero]
    linarith
  · obtain ⟨k, rfl⟩ : ∃ k, m = k + 1 := ⟨m - 1, by omega⟩
    have hbelow := (abs_sub_le_abs_sub_iff (value_strictMono (Nat.lt_succ_self k))).1.mp (h.le k)
    rw [Nat.succ_eq_add_one] at hbelow
    have hmono := gap_mono (Nat.le_succ k)
    rw [value_succ] at hbelow ⊢
    linarith

end IsNearest

theorem cast_shiftLeft_div_two_pow (a b k : ℕ) :
    ((a <<< k : ℕ) : ℚ) / b / 2 ^ k = a / b := by
  rw [Nat.shiftLeft_eq, Nat.cast_mul, Nat.cast_pow, Nat.cast_ofNat, div_right_comm,
    mul_div_cancel_right₀ _ (pow_ne_zero k two_ne_zero)]

/-- A power of ten as the quotient of its two natural parts. -/
theorem ten_pow_toNat_div (e : ℤ) : (10 ^ e.toNat / 10 ^ (-e).toNat : ℚ) = 10 ^ e := by
  rcases Int.eq_nat_or_neg e with ⟨n, rfl | rfl⟩
  · rw [Int.toNat_natCast, Int.toNat_neg_natCast, zpow_natCast, pow_zero, div_one]
  · rw [neg_neg, Int.toNat_natCast, Int.toNat_neg_natCast, zpow_neg, zpow_natCast, pow_zero,
      one_div]

/-- The magnitude that a decimal is rounded to is nearest to it. -/
theorem isNearest_nearestTo (d : Decimal) : IsNearest d.toRat (nearestTo d) := by
  have hden : 0 < Nat.pow 10 (-d.exponent).toNat := Nat.pow_pos (by decide)
  have h := isNearest_nearest ((d.digits * Nat.pow 10 d.exponent.toNat) <<< 1074) hden
  rw [cast_shiftLeft_div_two_pow, Nat.pow_eq, Nat.pow_eq, Nat.cast_mul, Nat.cast_pow, Nat.cast_pow,
    Nat.cast_ofNat, mul_div_assoc, ten_pow_toNat_div] at h
  exact h

/-- A decimal is rounded to the one magnitude that is nearest to it. -/
theorem nearestTo_eq_iff {d : Decimal} {m : ℕ} : nearestTo d = m ↔ IsNearest d.toRat m :=
  ⟨fun h => h ▸ isNearest_nearestTo d, fun h => (isNearest_nearestTo d).unique h⟩

end Double

end Comprehension
