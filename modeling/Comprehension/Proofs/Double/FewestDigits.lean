import Comprehension.Proofs.Double.Rounding
import Comprehension.Proofs.Double.Shortest

/-!
# The fewest digits

The shortest decimal of a positive magnitude lies on the greatest grid that has a decimal which
rounds to the magnitude, and no decimal of that grid which rounds to it is nearer to its value.  So
no decimal that rounds to the magnitude has fewer digits, and none with equally many is nearer.  Its
leading power of ten is found by comparing the magnitude with those of powers of ten.

## Main definitions

* `Double.IsCoarsest`: the closest decimals on the greatest grid.
* `Double.IsShortest`: the closest decimals with the fewest digits.

## Main results

* `Double.isCoarsest_shortest`, `Double.isShortest_shortest`: the decimal that is found.
* `Double.IsCoarsest.le_leading_iff`: the leading power of ten, from the order of magnitudes.
* `Double.IsCoarsest.digits_lt`: seventeen digits are enough.
-/

namespace Comprehension

/-! ### Leading powers -/

namespace Decimal

variable {d : Decimal}

theorem toRat_nonneg (d : Decimal) : 0 ≤ d.toRat :=
  mul_nonneg (Nat.cast_nonneg _) (zpow_nonneg (by norm_num) _)

theorem toRat_one (k : ℤ) : toRat ⟨1, k⟩ = 10 ^ k := by
  rw [toRat, Nat.cast_one, one_mul]

theorem toRat_eq_zero_iff : d.toRat = 0 ↔ d.digits = 0 := by
  rw [toRat, mul_eq_zero, Nat.cast_eq_zero, or_iff_left (zpow_ne_zero _ (by norm_num))]

theorem length_digitText_pos (d : Decimal) : 0 < d.digitText.length :=
  List.length_pos_iff.mpr Nat.toDigits_ne_nil

theorem length_digitText_le_iff {k : ℕ} (hk : 0 < k) :
    d.digitText.length ≤ k ↔ d.digits < 10 ^ k :=
  Nat.length_toDigits_le_iff (by decide) hk

/-- A decimal is below the power of ten above its leading digit. -/
theorem toRat_lt_zpow (d : Decimal) : d.toRat < 10 ^ (d.leading + 1) := by
  have hdigits : d.digits < 10 ^ d.digitText.length :=
    (length_digitText_le_iff d.length_digitText_pos).mp le_rfl
  have hleading : d.leading + 1 = d.digitText.length + d.exponent := by
    rw [leading]
    ring
  rw [hleading, zpow_add₀ (by norm_num), zpow_natCast, toRat]
  exact mul_lt_mul_of_pos_right (by exact_mod_cast hdigits) (zpow_pos (by norm_num) _)

/-- A decimal that is not zero is at least the power of ten of its leading digit. -/
theorem zpow_leading_le (hd : d.digits ≠ 0) : 10 ^ d.leading ≤ d.toRat := by
  have hdigits : 10 ^ (d.digitText.length - 1) ≤ d.digits := by
    rcases Nat.eq_zero_or_pos (d.digitText.length - 1) with hzero | hpos
    · rw [hzero, pow_zero]
      exact Nat.one_le_iff_ne_zero.mpr hd
    · refine not_lt.mp fun hlt => ?_
      have := (length_digitText_le_iff hpos).mpr hlt
      omega
  have hleading : d.leading = (d.digitText.length - 1 : ℕ) + d.exponent := by
    rw [leading, Nat.cast_pred d.length_digitText_pos]
    ring
  rw [hleading, zpow_add₀ (by norm_num), zpow_natCast, toRat]
  exact mul_le_mul_of_nonneg_right (by exact_mod_cast hdigits) (zpow_nonneg (by norm_num) _)

/-- Decimals are below the powers of ten above their leading digit. -/
theorem toRat_lt_of_leading_lt {k : ℤ} (h : d.leading < k) : d.toRat < toRat ⟨1, k⟩ := by
  rw [toRat_one]
  exact d.toRat_lt_zpow.trans_le (zpow_le_zpow_right₀ (by norm_num) h)

/-- Decimals are at least the powers of ten up to their leading digit. -/
theorem le_toRat_of_le_leading {k : ℤ} (hd : d.digits ≠ 0) (h : k ≤ d.leading) :
    toRat ⟨1, k⟩ ≤ d.toRat := by
  rw [toRat_one]
  exact (zpow_le_zpow_right₀ (by norm_num) h).trans (zpow_leading_le hd)

end Decimal

namespace Double

variable {m : ℕ} {d : Decimal}

/-- Only zero rounds to the magnitude of zero. -/
theorem IsNearest.digits_ne_zero (h : IsNearest d.toRat m) (hm : m ≠ 0) : d.digits ≠ 0 := by
  intro hzero
  rw [Decimal.toRat_eq_zero_iff.mpr hzero, ← value_zero] at h
  exact hm (h.unique (.self 0))

/-! ### One grid -/

/-- A value between two neighbours on a grid, and the search on that grid. -/
theorem exists_onGrid_eq (m : ℕ) (e : ℤ) :
    ∃ (f : ℕ) (t : ℚ), 0 ≤ t ∧ t < 1 ∧ value m = (f + t) * 10 ^ e ∧
      onGrid m e =
        if nearestTo ⟨f, e⟩ = m then
          if nearestTo ⟨f + 1, e⟩ = m ∧ 1 / 2 ≤ t then some ⟨f + 1, e⟩ else some ⟨f, e⟩
        else if nearestTo ⟨f + 1, e⟩ = m then some ⟨f + 1, e⟩
        else none := by
  generalize hnum : units m * Nat.pow 10 (-e).toNat = num
  generalize hden : Nat.pow 10 e.toNat <<< 1074 = den
  have hpos : 0 < den := by
    rw [← hden, Nat.shiftLeft_eq]
    exact Nat.mul_pos (Nat.pow_pos (by decide)) (Nat.two_pow_pos 1074)
  have hdenq : (0 : ℚ) < den := Nat.cast_pos.mpr hpos
  obtain ⟨hsum, hnonneg, hlt⟩ := cast_div_eq_add num hpos
  have hvalue : (num / den : ℚ) * 10 ^ e = value m := by
    have hcancel {a b c : ℚ} (ha : a ≠ 0) (hb : b ≠ 0) (v : ℚ) :
        v * a / (b * c) * (b / a) = v / c := by
      field_simp
    rw [← hnum, ← hden, Nat.shiftLeft_eq, Nat.pow_eq, Nat.pow_eq, ← ten_pow_toNat_div, value]
    simp only [Nat.cast_mul, Nat.cast_pow, Nat.cast_ofNat]
    exact hcancel (pow_ne_zero _ (by norm_num)) (pow_ne_zero _ (by norm_num)) _
  have hhalf : den ≤ 2 * (num % den) ↔ (1 / 2 : ℚ) ≤ (num % den : ℕ) / den := by
    rw [div_le_div_iff₀ two_pos hdenq, one_mul, mul_comm 2]
    exact_mod_cast Iff.rfl
  refine ⟨num / den, (num % den : ℕ) / den, hnonneg, hlt, ?_, ?_⟩
  · rw [← hvalue, hsum]
  · simp only [onGrid, hnum, hden, hhalf]

/-- A decimal of a grid that rounds to the magnitude, and is as near to its value as any other. -/
structure IsClosest (m : ℕ) (e : ℤ) (d : Decimal) : Prop where
  exponent_eq : d.exponent = e
  isNearest : IsNearest d.toRat m
  closest (n : ℕ) : IsNearest (Decimal.toRat ⟨n, e⟩) m →
    |d.toRat - value m| ≤ |Decimal.toRat ⟨n, e⟩ - value m|

/-- A decimal of a grid lies on one side of the neighbours of a value. -/
theorem toRat_neighbours {f : ℕ} {t : ℚ} {e : ℤ} (ht : 0 ≤ t) (ht1 : t < 1)
    (hvalue : value m = (f + t) * 10 ^ e) :
    Decimal.toRat ⟨f, e⟩ ≤ value m ∧ value m ≤ Decimal.toRat ⟨f + 1, e⟩ ∧
      |Decimal.toRat ⟨f, e⟩ - value m| = t * 10 ^ e ∧
      |Decimal.toRat ⟨f + 1, e⟩ - value m| = (1 - t) * 10 ^ e := by
  have hpow : (0 : ℚ) < 10 ^ e := zpow_pos (by norm_num) e
  have hbelow : Decimal.toRat ⟨f, e⟩ - value m = -(t * 10 ^ e) := by
    rw [hvalue, Decimal.toRat]
    ring
  have habove : Decimal.toRat ⟨f + 1, e⟩ - value m = (1 - t) * 10 ^ e := by
    rw [hvalue, Decimal.toRat]
    push_cast
    ring
  have hlow : 0 ≤ t * 10 ^ e := mul_nonneg ht hpow.le
  have hhigh : 0 ≤ (1 - t) * 10 ^ e := mul_nonneg (by linarith) hpow.le
  refine ⟨by linarith, by linarith, ?_, ?_⟩
  · rw [hbelow, abs_neg, abs_of_nonneg hlow]
  · rw [habove, abs_of_nonneg hhigh]

theorem toRat_mono {n k : ℕ} {e : ℤ} (h : n ≤ k) : Decimal.toRat ⟨n, e⟩ ≤ Decimal.toRat ⟨k, e⟩ :=
  mul_le_mul_of_nonneg_right (Nat.cast_le.mpr h) (zpow_nonneg (by norm_num) e)

/-- Where a decimal of a grid rounds to a magnitude, so does the neighbour of its value on the same
side, and that is nearer. -/
theorem neighbour_of_isNearest {f n : ℕ} {t : ℚ} {e : ℤ} (ht : 0 ≤ t) (ht1 : t < 1)
    (hvalue : value m = (f + t) * 10 ^ e) (hn : IsNearest (Decimal.toRat ⟨n, e⟩) m) :
    (nearestTo ⟨f, e⟩ = m ∧ t * 10 ^ e ≤ |Decimal.toRat ⟨n, e⟩ - value m|) ∨
      (nearestTo ⟨f + 1, e⟩ = m ∧ (1 - t) * 10 ^ e ≤ |Decimal.toRat ⟨n, e⟩ - value m|) := by
  obtain ⟨hlow, hhigh, hbelow, habove⟩ := toRat_neighbours ht ht1 hvalue
  rcases Nat.lt_or_ge f n with hlt | hge
  · have hle : Decimal.toRat ⟨f + 1, e⟩ ≤ Decimal.toRat ⟨n, e⟩ := toRat_mono hlt
    refine .inr ⟨(IsNearest.self m).eq_of_between hn (isNearest_nearestTo _) hhigh hle, ?_⟩
    rw [← habove, abs_of_nonneg (by linarith), abs_of_nonneg (by linarith)]
    linarith
  · have hle : Decimal.toRat ⟨n, e⟩ ≤ Decimal.toRat ⟨f, e⟩ := toRat_mono hge
    refine .inl ⟨hn.eq_of_between (.self m) (isNearest_nearestTo _) hle hlow, ?_⟩
    rw [← hbelow, abs_of_nonpos (by linarith), abs_of_nonpos (by linarith)]
    linarith

/-- The search on a grid finds the closest decimal that rounds to the magnitude. -/
theorem isClosest_of_onGrid {e : ℤ} (h : onGrid m e = some d) : IsClosest m e d := by
  obtain ⟨f, t, ht, ht1, hvalue, hgrid⟩ := exists_onGrid_eq m e
  obtain ⟨-, -, hbelow, habove⟩ := toRat_neighbours ht ht1 hvalue
  have hpow : (0 : ℚ) < 10 ^ e := zpow_pos (by norm_num) e
  have hnearest : IsNearest d.toRat m := nearestTo_eq_iff.mp (nearestTo_of_onGrid h)
  rw [hgrid] at h
  split_ifs at h with hlow hboth hhigh <;> obtain rfl := Option.some.inj h
  · refine ⟨rfl, hnearest, fun n hn => ?_⟩
    rw [habove]
    rcases neighbour_of_isNearest ht ht1 hvalue hn with ⟨-, hle⟩ | ⟨-, hle⟩
    · exact le_trans (mul_le_mul_of_nonneg_right (by linarith [hboth.2]) hpow.le) hle
    · exact hle
  · refine ⟨rfl, hnearest, fun n hn => ?_⟩
    rw [hbelow]
    rcases neighbour_of_isNearest ht ht1 hvalue hn with ⟨-, hle⟩ | ⟨hhigh, hle⟩
    · exact hle
    · have hhalf : t < 1 / 2 := not_le.mp fun hge => hboth ⟨hhigh, hge⟩
      exact le_trans (mul_le_mul_of_nonneg_right (by linarith) hpow.le) hle
  · refine ⟨rfl, hnearest, fun n hn => ?_⟩
    rw [habove]
    rcases neighbour_of_isNearest ht ht1 hvalue hn with ⟨hlow', -⟩ | ⟨-, hle⟩
    · exact absurd hlow' hlow
    · exact hle

/-- The search on a grid finds a decimal where one rounds to the magnitude. -/
theorem isSome_onGrid (hd : IsNearest d.toRat m) : (onGrid m d.exponent).isSome := by
  obtain ⟨f, t, ht, ht1, hvalue, hgrid⟩ := exists_onGrid_eq m d.exponent
  rw [hgrid]
  rcases neighbour_of_isNearest (n := d.digits) ht ht1 hvalue hd with ⟨hlow, -⟩ | ⟨hhigh, -⟩
  · rw [if_pos hlow]
    split_ifs <;> rfl
  · rw [if_pos hhigh]
    split_ifs <;> rfl

/-! ### All grids -/

/-- A decimal that rounds to a magnitude: none on a greater grid does, and none on the same grid
that does is nearer to its value. -/
structure IsCoarsest (m : ℕ) (d : Decimal) : Prop where
  isNearest : IsNearest d.toRat m
  exponent_le {d' : Decimal} : IsNearest d'.toRat m → d'.exponent ≤ d.exponent
  closest {d' : Decimal} : IsNearest d'.toRat m → d'.exponent = d.exponent →
    |d.toRat - value m| ≤ |d'.toRat - value m|

/-- Powers of five below a power of ten are negative powers of two. -/
theorem toRat_mul_five_pow (n k : ℕ) {e : ℤ} (he : e = -k) :
    Decimal.toRat ⟨n * Nat.pow 5 k, e⟩ = n / 2 ^ k := by
  have hten : (10 : ℚ) ^ k = 2 ^ k * 5 ^ k := by
    rw [← mul_pow]
    norm_num
  rw [Decimal.toRat, Nat.pow_eq, he, zpow_neg, zpow_natCast, hten]
  push_cast
  field_simp

/-- The exact decimal of a magnitude has its value. -/
theorem toRat_exact (m : ℕ) : (exact m).toRat = value m := by
  rw [exact, value]
  -- A variable in place of the exponent keeps the powers from being evaluated.
  generalize hk : 1074 = k
  exact toRat_mul_five_pow (units m) k (by rw [← hk]; rfl)

/-- A value is a gap at least, unless it is zero. -/
theorem gap_le_value (hm : m ≠ 0) : gap m ≤ value m := by
  obtain ⟨s, r, hsr, hs, -, hvalue, -⟩ := exists_value_eq m
  have hr : 1 ≤ r := by omega
  rw [hvalue]
  exact le_mul_of_one_le_left (gap_pos m).le (by exact_mod_cast hr)

theorem cast_div_two_pow_lt {n k b : ℕ} (h : n >>> k < b) : (n / 2 ^ k : ℚ) < b := by
  rw [Nat.shiftRight_eq_div_pow, Nat.div_lt_iff_lt_mul (Nat.two_pow_pos k)] at h
  rw [div_lt_iff₀ (pow_pos two_pos k)]
  exact_mod_cast h

/-- Every decimal that rounds to a positive magnitude lies on a grid that is searched. -/
theorem exponent_le_topExponent (hm : m ≠ 0) (h : IsNearest d.toRat m) :
    d.exponent ≤ topExponent m := by
  have hpow : (0 : ℚ) < 10 ^ d.exponent := zpow_pos (by norm_num) _
  have hdigits : (1 : ℚ) ≤ d.digits := by
    exact_mod_cast Nat.one_le_iff_ne_zero.mpr (h.digits_ne_zero hm)
  have hlow : (10 : ℚ) ^ d.exponent ≤ d.toRat := le_mul_of_one_le_left hpow.le hdigits
  have hnear := abs_le.mp (h.abs_sub_le d.toRat_nonneg)
  have hgap := gap_le_value hm
  have htop : units m >>> 1074 < 10 ^ topExponent m :=
    (Nat.length_toDigits_le_iff (by decide) (List.length_pos_iff.mpr Nat.toDigits_ne_nil)).mp le_rfl
  have hvalue : value m < 10 ^ topExponent m := by
    have hlt := cast_div_two_pow_lt htop
    rwa [Nat.cast_pow, Nat.cast_ofNat] at hlt
  have hlt : (10 : ℚ) ^ d.exponent < 10 ^ ((topExponent m : ℤ) + 1) := by
    rw [zpow_add₀ (by norm_num), zpow_natCast, zpow_one]
    linarith
  exact Int.lt_add_one_iff.mp ((zpow_lt_zpow_iff_right₀ (by norm_num)).mp hlt)

/-- The search starts above every grid with a decimal that rounds to the magnitude, and finds one
on the grid of the exact decimal at the latest. -/
theorem exists_onGrid_eq_shortest (hm : m ≠ 0) :
    ∃ e, onGrid m e = some (shortest m) ∧ ∀ e', e < e' → onGrid m e' = none := by
  have hlast : (onGrid m (-1074)).isSome :=
    isSome_onGrid (d := exact m) (by rw [toRat_exact]; exact .self m)
  have hrange (i : ℕ) : i ∈ List.range (topExponent m + 1075) ↔ i < topExponent m + 1075 :=
    List.mem_range
  cases hfind : (List.range (topExponent m + 1075)).findSome? fun (i : ℕ) =>
      onGrid m ((topExponent m : ℤ) - i) with
  | none =>
    have hnone := List.findSome?_eq_none_iff.mp hfind (topExponent m + 1074)
      ((hrange _).mpr (by omega))
    rw [Nat.cast_add, sub_add_cancel_left] at hnone
    exact absurd (Option.isSome_iff_ne_none.mp hlast) (not_not.mpr hnone)
  | some d =>
    obtain ⟨before, i, after, hsplit, hi, hbefore⟩ := List.findSome?_eq_some_iff.mp hfind
    have hshortest : shortest m = d := by
      rw [shortest, if_neg hm, hfind, Option.getD_some]
    refine ⟨topExponent m - i, hshortest ▸ hi, fun e' he' => ?_⟩
    refine Option.not_isSome_iff_eq_none.mp fun hsome => ?_
    obtain ⟨d', hd'⟩ := Option.isSome_iff_exists.mp hsome
    have hclosest := isClosest_of_onGrid hd'
    have htop : e' ≤ topExponent m := by
      rw [← hclosest.exponent_eq]
      exact exponent_le_topExponent hm hclosest.isNearest
    -- A greater grid is searched before, and nothing was found there.
    obtain ⟨j, hj⟩ := Int.eq_ofNat_of_zero_le (sub_nonneg.mpr htop)
    have hji : j < i := by omega
    have hmem : j ∈ before := by
      have hmem : j ∈ before ++ i :: after := by
        rw [← hsplit, hrange]
        have := (hrange i).mp (hsplit ▸ List.mem_append_right before List.mem_cons_self)
        omega
      have hsorted := List.pairwise_lt_range (n := topExponent m + 1075)
      rw [hsplit, List.pairwise_append, List.pairwise_cons] at hsorted
      rcases List.mem_append.mp hmem with h | h
      · exact h
      · rcases List.mem_cons.mp h with rfl | h
        · exact absurd hji (lt_irrefl _)
        · exact absurd (hsorted.2.1.1 j h) (by omega)
    have hnone := hbefore j hmem
    rw [← hj, sub_sub_cancel, hd'] at hnone
    cases hnone

/-- The decimal that is found for a positive magnitude lies on the greatest grid. -/
theorem isCoarsest_shortest (hm : m ≠ 0) : IsCoarsest m (shortest m) := by
  obtain ⟨e, hgrid, hnone⟩ := exists_onGrid_eq_shortest hm
  have hclosest := isClosest_of_onGrid hgrid
  refine ⟨hclosest.isNearest, fun {d'} hd' => ?_, fun {d'} hd' he => ?_⟩
  · rw [hclosest.exponent_eq]
    refine not_lt.mp fun hlt => ?_
    have hsome := isSome_onGrid hd'
    rw [hnone _ hlt] at hsome
    exact absurd hsome (by decide)
  · obtain ⟨digits, exponent⟩ := d'
    obtain rfl : exponent = e := he.trans hclosest.exponent_eq
    exact hclosest.closest digits hd'

/-! ### Digits and leading powers -/

/-- A number is nearest to a magnitude if it is less than half of the gap below away. -/
theorem IsNearest.of_abs_lt {q : ℚ} {k : ℕ} (h : |q - value (k + 1)| < gap k / 2) :
    IsNearest q (k + 1) := by
  refine .of_abs_le h.le (fun heq => absurd heq h.ne) ?_ fun j hj => .inl ?_
  · rw [value_succ (k + 1)]
    exact add_le_add_right (gap_mono (Nat.le_succ k)) _
  · obtain rfl := Nat.succ_injective hj
    rw [value_succ k, add_sub_cancel_right]

/-- What rounds to a magnitude is at most `2 ^ 53 + 1` of the gaps below. -/
theorem value_add_half_gap_le (k : ℕ) :
    value (k + 1) + gap (k + 1) / 2 ≤ (2 ^ 53 + 1) * gap k := by
  obtain ⟨s, r, hm, hs, hr, hvalue, hgap⟩ := exists_value_eq (k + 1)
  obtain ⟨s', r', hk, hs', hr', -, hgap'⟩ := exists_value_eq k
  have hpos := gap_pos k
  by_cases hsame : s = s'
  · have hrq : (r : ℚ) ≤ 2 ^ 53 := by exact_mod_cast hr.le
    rw [hsame, ← hgap'] at hgap
    rw [hvalue, hgap]
    nlinarith
  -- The first magnitude with a greater gap has the least digits.
  · obtain ⟨rfl, rfl⟩ : s = s' + 1 ∧ r = 2 ^ 52 := by omega
    have hdouble : gap (k + 1) = 2 * gap k := by
      rw [hgap, hgap', pow_succ', mul_div_assoc]
    rw [hvalue, hdouble]
    push_cast
    linarith

theorem ten_zpow_neg_bounds {j k : ℕ} (hlow : 2 * 10 ^ k ≤ 2 ^ j)
    (hhigh : 10 * 2 ^ j ≤ 21 * 10 ^ k) :
    2 * (2 ^ 0 / 2 ^ j) ≤ (10 : ℚ) ^ (-(k : ℤ)) ∧
      10 * (10 : ℚ) ^ (-(k : ℤ)) ≤ 21 * (2 ^ 0 / 2 ^ j) := by
  have htwo : (0 : ℚ) < 2 ^ j := by positivity
  have hten : (0 : ℚ) < 10 ^ k := by positivity
  have hlowq : (2 * 10 ^ k : ℚ) ≤ 2 ^ j := by exact_mod_cast hlow
  have hhighq : (10 * 2 ^ j : ℚ) ≤ 21 * 10 ^ k := by exact_mod_cast hhigh
  rw [pow_zero, mul_one_div, mul_one_div, zpow_neg, zpow_natCast, ← div_eq_mul_inv, ← one_div,
    div_le_div_iff₀ htwo hten, div_le_div_iff₀ hten htwo]
  exact ⟨by linarith, by linarith⟩

/-- The power of ten that is nearest to the least gap is a little more than two of them. -/
theorem two_mul_gap_zero_le :
    2 * gap 0 ≤ 10 ^ (-323 : ℤ) ∧ 10 * 10 ^ (-323 : ℤ) ≤ 21 * gap 0 := by
  have h := ten_zpow_neg_bounds (j := 1074) (k := 323) (by decide +kernel) (by decide +kernel)
  obtain ⟨s, r, hsr, hs, -, -, hgap⟩ := exists_value_eq 0
  obtain rfl : s = 0 := by omega
  rwa [← hgap] at h

/-- A power of ten that is rounded down is little more than the value it is rounded to. -/
theorem IsNearest.power_sub_le {e : ℤ} (h : IsNearest (10 ^ e) m) (hm : m ≠ 0)
    (hlt : value m < 10 ^ e) : 10 ^ e - value m ≤ 10 ^ e / 20 := by
  obtain ⟨s, r, hsr, hs, -, hvalue, hgap⟩ := exists_value_eq m
  have hpos := gap_pos m
  have hnear := (abs_le.mp (h.abs_sub_le (zpow_nonneg (by norm_num) e))).2
  rcases Nat.lt_or_ge r 10 with hsmall | hlarge
  -- Few of the least gaps: the power of ten can only be a little more than two of them.
  · obtain rfl : s = 0 := by omega
    have hzero : gap m = gap 0 := by
      obtain ⟨s', r', hsr', hs', -, -, hgap'⟩ := exists_value_eq 0
      obtain rfl : s' = 0 := by omega
      rw [hgap, hgap']
    obtain ⟨htwo, hten⟩ := two_mul_gap_zero_le
    rw [← hzero] at htwo hten
    have hr : (r : ℚ) ≤ 9 := by exact_mod_cast Nat.lt_succ_iff.mp hsmall
    have hr1 : (1 : ℚ) ≤ r := by exact_mod_cast Nat.one_le_iff_ne_zero.mpr (by omega)
    have hle : e ≤ -323 := by
      by_contra! hgt
      have hpow : (10 : ℚ) ^ (-323 + 1 : ℤ) ≤ 10 ^ e := zpow_le_zpow_right₀ (by norm_num) hgt
      rw [zpow_add₀ (by norm_num), zpow_one] at hpow
      nlinarith
    have hge : -323 ≤ e := by
      by_contra! hlow
      have hpow : (10 : ℚ) ^ e ≤ 10 ^ (-323 - 1 : ℤ) :=
        zpow_le_zpow_right₀ (by norm_num) (by omega)
      rw [zpow_sub₀ (by norm_num), zpow_one] at hpow
      nlinarith
    obtain rfl : e = -323 := le_antisymm hle hge
    have hr2 : (2 : ℚ) ≤ r := by
      refine not_lt.mp fun hone => ?_
      have hrone : (r : ℚ) = 1 := by
        have hnat : r < 2 := by exact_mod_cast hone
        exact le_antisymm (by exact_mod_cast Nat.lt_succ_iff.mp hnat) hr1
      rw [hrone, one_mul] at hvalue
      linarith
    nlinarith
  · have hten : (10 : ℚ) ≤ r := by exact_mod_cast hlarge
    nlinarith

namespace IsCoarsest

theorem digits_ne_zero (h : IsCoarsest m d) (hm : m ≠ 0) : d.digits ≠ 0 :=
  h.isNearest.digits_ne_zero hm

/-- No decimal that rounds to the magnitude has fewer digits. -/
theorem length_digitText_le (h : IsCoarsest m d) (hm : m ≠ 0) {d' : Decimal}
    (hd' : IsNearest d'.toRat m) : d.digitText.length ≤ d'.digitText.length := by
  by_contra! hlt
  have hexp := h.exponent_le hd'
  -- A power of ten on a greater grid would lie between the two decimals.
  set p := d.exponent + d'.digitText.length with hp
  have hleading' : d'.leading < p := by
    rw [Decimal.leading]
    omega
  have hleading : p ≤ d.leading := by
    rw [Decimal.leading]
    omega
  have hround := hd'.eq_of_between h.isNearest (isNearest_nearestTo _)
    (Decimal.toRat_lt_of_leading_lt hleading').le
    (Decimal.le_toRat_of_le_leading (h.digits_ne_zero hm) hleading)
  have hle := h.exponent_le (nearestTo_eq_iff.mp hround)
  have hpos := d'.length_digitText_pos
  simp only [hp] at hle
  omega

/-- The leading digit is at a power of ten or above exactly if the magnitude is at least that of
the power. -/
theorem le_leading_iff (h : IsCoarsest m d) (hm : m ≠ 0) {k : ℤ} :
    k ≤ d.leading ↔ nearestTo ⟨1, k⟩ ≤ m := by
  have hround := isNearest_nearestTo ⟨1, k⟩
  constructor
  · intro hk
    exact hround.mono h.isNearest (Decimal.le_toRat_of_le_leading (h.digits_ne_zero hm) hk)
  · intro hle
    by_contra! hlt
    have hbelow : d.toRat ≤ Decimal.toRat ⟨1, k⟩ := (Decimal.toRat_lt_of_leading_lt hlt).le
    -- The power would round to the magnitude as well, and lies on a greater grid.
    have heq : nearestTo ⟨1, k⟩ = m := le_antisymm hle (h.isNearest.mono hround hbelow)
    have hexp : k ≤ d.exponent := h.exponent_le (nearestTo_eq_iff.mp heq)
    have hpos := d.length_digitText_pos
    rw [Decimal.leading] at hlt
    omega

/-- Among the decimals with equally many digits that round to the magnitude, none is nearer to its
value. -/
theorem abs_sub_le_of_length_eq (h : IsCoarsest m d) (hm : m ≠ 0) {d' : Decimal}
    (hd' : IsNearest d'.toRat m) (hlength : d'.digitText.length = d.digitText.length) :
    |d.toRat - value m| ≤ |d'.toRat - value m| := by
  rcases (h.exponent_le hd').eq_or_lt with heq | hlt
  · exact h.closest hd' heq
  -- The power of ten of the leading digit lies between the two, so there is only one digit.
  have hleading : d'.leading < d.leading := by
    rw [Decimal.leading, Decimal.leading]
    omega
  have hbelow := Decimal.toRat_lt_of_leading_lt hleading
  have habove := Decimal.le_toRat_of_le_leading (h.digits_ne_zero hm) le_rfl
  have hround : IsNearest (Decimal.toRat ⟨1, d.leading⟩) m :=
    nearestTo_eq_iff.mp (hd'.eq_of_between h.isNearest (isNearest_nearestTo _) hbelow.le habove)
  have hexp : d.leading ≤ d.exponent := h.exponent_le hround
  have hpos := d.length_digitText_pos
  have hone : d.digitText.length = 1 := by
    rw [Decimal.leading] at hexp
    omega
  have heq : d.leading = d.exponent := by
    rw [Decimal.leading, hone]
    omega
  have hpower := h.closest hround heq
  -- The other one is at most nine tenths of the power, which is nearer to the value than that.
  have hnine : d'.toRat ≤ 9 / 10 * 10 ^ d.leading := by
    have hdigits : d'.digits ≤ 9 := by
      have hlt := (Decimal.length_digitText_le_iff one_pos).mp (hlength.trans hone).le
      omega
    have hgrid : (10 : ℚ) ^ d'.exponent ≤ 10 ^ (d.leading - 1) :=
      zpow_le_zpow_right₀ (by norm_num) (by omega)
    rw [zpow_sub₀ (by norm_num), zpow_one] at hgrid
    have hdigitsq : (d'.digits : ℚ) ≤ 9 := by exact_mod_cast hdigits
    have hpow : (0 : ℚ) < 10 ^ d'.exponent := zpow_pos (by norm_num) _
    rw [Decimal.toRat]
    nlinarith
  rw [Decimal.toRat_one] at hround hpower hbelow
  refine hpower.trans ?_
  rcases le_or_gt (10 ^ d.leading) (value m) with hle | hgt
  · rw [abs_of_nonpos (by linarith), abs_of_nonpos (by linarith)]
    linarith
  · have hnear := hround.power_sub_le hm hgt
    rw [abs_of_pos (by linarith), abs_of_nonpos (by linarith)]
    linarith

/-- Every grid that is finer than the gap below has a decimal that rounds to the magnitude. -/
theorem le_exponent {k : ℕ} {e : ℤ} (h : IsCoarsest (k + 1) d) (he : 10 ^ e < gap k) :
    e ≤ d.exponent := by
  obtain ⟨f, t, ht, ht1, hvalue, -⟩ := exists_onGrid_eq (k + 1) e
  obtain ⟨-, -, hbelow, habove⟩ := toRat_neighbours ht ht1 hvalue
  have hpow : (0 : ℚ) < 10 ^ e := zpow_pos (by norm_num) e
  rcases le_total t (1 / 2) with hhalf | hhalf
  · have hround : IsNearest (Decimal.toRat ⟨f, e⟩) (k + 1) :=
      .of_abs_lt (by rw [hbelow]; nlinarith)
    exact h.exponent_le hround
  · have hround : IsNearest (Decimal.toRat ⟨f + 1, e⟩) (k + 1) :=
      .of_abs_lt (by rw [habove]; nlinarith)
    exact h.exponent_le hround

/-- Seventeen digits are enough. -/
theorem digits_lt (h : IsCoarsest m d) (hm : m ≠ 0) : d.digits < 10 ^ 17 := by
  obtain ⟨k, rfl⟩ := Nat.exists_eq_add_one_of_ne_zero hm
  obtain ⟨e, hlow, hhigh⟩ := exists_mem_Ioc_zpow (y := (10 : ℚ)) (gap_pos k) (by norm_num)
  have hpow : (0 : ℚ) < 10 ^ d.exponent := zpow_pos (by norm_num) _
  have hgrid : (10 : ℚ) ^ e ≤ 10 ^ d.exponent :=
    zpow_le_zpow_right₀ (by norm_num) (h.le_exponent hlow)
  have hnear := abs_le.mp (h.isNearest.abs_sub_le d.toRat_nonneg)
  have hgap := value_add_half_gap_le k
  rw [zpow_add₀ (by norm_num), zpow_one] at hhigh
  have hrat : (d.digits : ℚ) * 10 ^ d.exponent ≤ (2 ^ 53 + 1) * 10 * 10 ^ d.exponent := by
    calc (d.digits : ℚ) * 10 ^ d.exponent = d.toRat := rfl
      _ ≤ (2 ^ 53 + 1) * gap k := by linarith
      _ ≤ (2 ^ 53 + 1) * 10 * 10 ^ d.exponent := by nlinarith
  have hdigits : (d.digits : ℚ) ≤ (2 ^ 53 + 1) * 10 := le_of_mul_le_mul_right hrat hpow
  have hnat : d.digits ≤ (2 ^ 53 + 1) * 10 := by exact_mod_cast hdigits
  omega

/-- The grids of the shortest decimals of finite magnitudes. -/
theorem exponent_bounds (h : IsCoarsest m d) (hm : m ≠ 0) (hfinite : m < infinite) :
    -324 ≤ d.exponent ∧ d.exponent ≤ 308 := by
  constructor
  · obtain ⟨k, rfl⟩ := Nat.exists_eq_add_one_of_ne_zero hm
    refine h.le_exponent ?_
    have hgap := gap_mono (Nat.zero_le k)
    have hpos := gap_pos 0
    have hten := two_mul_gap_zero_le.2
    rw [show (-324 : ℤ) = -323 - 1 by norm_num, zpow_sub₀ (by norm_num), zpow_one]
    linarith
  · by_contra! hlt
    have hpow : (2 : ℚ) ^ 1024 ≤ 10 ^ 309 := by
      have hnat : 2 ^ 1024 ≤ 10 ^ 309 := by decide +kernel
      have hcast := (Nat.cast_le.mpr hnat : ((2 ^ 1024 : ℕ) : ℚ) ≤ (10 ^ 309 : ℕ))
      rwa [Nat.cast_pow, Nat.cast_pow, Nat.cast_ofNat, Nat.cast_ofNat] at hcast
    have hone : (1 : ℚ) ≤ d.digits := by
      exact_mod_cast Nat.one_le_iff_ne_zero.mpr (h.digits_ne_zero hm)
    have hvalue : value infinite ≤ d.toRat := by
      rw [value_infinite]
      calc (2 : ℚ) ^ 1024 ≤ 10 ^ 309 := hpow
        _ = 10 ^ (309 : ℤ) := (zpow_natCast _ _).symm
        _ ≤ 10 ^ d.exponent := zpow_le_zpow_right₀ (by norm_num) hlt
        _ ≤ d.toRat := le_mul_of_one_le_left (zpow_nonneg (by norm_num) _) hone
    exact absurd ((IsNearest.self infinite).mono h.isNearest hvalue) (not_le.mpr hfinite)

end IsCoarsest

/-- The decimals with the fewest digits that round to a magnitude: none that does has fewer digits,
and none with equally many is nearer to its value. -/
structure IsShortest (m : ℕ) (d : Decimal) : Prop where
  isNearest : IsNearest d.toRat m
  fewest {d' : Decimal} : IsNearest d'.toRat m → d.digitText.length ≤ d'.digitText.length
  closest {d' : Decimal} : IsNearest d'.toRat m → d'.digitText.length = d.digitText.length →
    |d.toRat - value m| ≤ |d'.toRat - value m|

/-- The decimal that is found for a positive magnitude has the fewest digits. -/
theorem isShortest_shortest (hm : m ≠ 0) : IsShortest m (shortest m) :=
  have h := isCoarsest_shortest hm
  ⟨h.isNearest, h.length_digitText_le hm, h.abs_sub_le_of_length_eq hm⟩

end Double

end Comprehension
