import Comprehension.Json.Reader
import Comprehension.Proofs.Double.Key
import Comprehension.Proofs.Double.Scaling
import Comprehension.Proofs.Json.Lexing

/-!
# Written doubles

A finite double is written as its shortest decimal without an exponent, which is a numeral that
rounds to the double.  The reader makes an integer of it where it has no fraction and fits
sixty-four bits.  Otherwise it takes the digits that fit and scales them in steps that each round,
so what it reads may be a few steps away from the double.

## Main definitions

* `Json.Numeral.IsPositional`: the numeral of a decimal without an exponent.
* `Json.Numeral.toInt`: the integer that the digits of a numeral denote.

## Main results

* `Json.Numeral.exists_appendDigits_zeros`: as many zeros are taken as fit.
* `Json.exists_isPositional`: the text of a double is a numeral.
* `Json.read?_text_of_integer`, `Json.read?_text_of_not_integer`: what is read from it.
* `Json.read?_text_float`: written doubles and what is read from them.
-/

namespace Comprehension.Json

open Double (IsNearest nearestTo shortest infinite)

/-! ### The digits that are taken -/

namespace Numeral

theorem appendDigits_cons (n : ℕ) (c : Char) (cs : List Char) :
    appendDigits n (c :: cs) =
      if 10 * n + (c.toNat - '0'.toNat) < 2 ^ 64 then
        appendDigits (10 * n + (c.toNat - '0'.toNat)) cs
      else (n, cs.length + 1) := by
  rw [appendDigits]
  rfl

theorem le_ofDigitChars (ds : List Char) (n : ℕ) : n ≤ Nat.ofDigitChars 10 ds n := by
  rw [Nat.ofDigitChars_eq_ofDigitChars_zero]
  exact (Nat.le_mul_of_pos_left n (Nat.pow_pos (by decide))).trans (Nat.le_add_right _ _)

/-- Digits that fit are all taken. -/
theorem appendDigits_append {n : ℕ} {ds : List Char} (h : Nat.ofDigitChars 10 ds n < 2 ^ 64)
    (es : List Char) : appendDigits n (ds ++ es) = appendDigits (Nat.ofDigitChars 10 ds n) es := by
  induction ds generalizing n with
  | nil => rfl
  | cons d ds ih =>
    rw [Nat.ofDigitChars_cons] at h ⊢
    have hle := le_ofDigitChars ds (10 * n + (d.toNat - '0'.toNat))
    rw [List.cons_append, appendDigits_cons, if_pos (hle.trans_lt h), ih h]

theorem appendDigits_eq {n : ℕ} {ds : List Char} (h : Nat.ofDigitChars 10 ds n < 2 ^ 64) :
    appendDigits n ds = (Nat.ofDigitChars 10 ds n, 0) := by
  have happend := appendDigits_append h []
  rwa [List.append_nil] at happend

/-- As many zeros are taken as fit. -/
theorem exists_appendDigits_zeros {n : ℕ} (hn : n < 2 ^ 64) (k : ℕ) :
    ∃ j ≤ k, appendDigits n (List.replicate k '0') = (n * 10 ^ j, k - j) ∧ n * 10 ^ j < 2 ^ 64 ∧
      (j = k ∨ 2 ^ 64 ≤ n * 10 ^ (j + 1)) := by
  induction k generalizing n with
  | zero => exact ⟨0, le_rfl, by rw [pow_zero, mul_one]; rfl, by rwa [pow_zero, mul_one], .inl rfl⟩
  | succ k ih =>
    have hzero : 10 * n + ('0'.toNat - '0'.toNat) = 10 * n := rfl
    rw [List.replicate_succ, appendDigits_cons, hzero]
    split_ifs with hfits
    · obtain ⟨j, hj, heq, hlt, hlast⟩ := ih hfits
      have hpow (i : ℕ) : 10 * n * 10 ^ i = n * 10 ^ (i + 1) := by
        rw [pow_succ]
        ring
      rw [hpow] at heq hlt hlast
      exact ⟨j + 1, by omega, by rw [heq, Nat.add_sub_add_right], hlt, by omega⟩
    · refine ⟨0, Nat.zero_le _, ?_, by rwa [pow_zero, mul_one], .inr ?_⟩
      · rw [pow_zero, mul_one, List.length_replicate, Nat.sub_zero]
      · rw [zero_add, pow_one]
        omega

/-! ### The numeral of a decimal -/

/-- A numeral that is the text of a decimal without an exponent.  Where the decimal has no places
after the point, as many of its zeros are taken as digits as fit. -/
structure IsPositional (n : Numeral) (negative : Bool) (d : Decimal) : Prop where
  read : readNumeral (withMinus negative d.positional) = some (n, [])
  negative_eq : n.negative = negative
  exponent_eq : n.exponent? = none
  toRat_eq : n.toRat = d.toRat
  positional_eq : n.fraction = [] → d.positional = Nat.toDigits 10 n.digits
  decimal_eq : ∃ j : ℕ, n.decimal = ⟨d.digits * 10 ^ j, d.exponent - j⟩ ∧
    (j : ℤ) ≤ max 0 d.exponent ∧ d.digits * 10 ^ j < 2 ^ 64 ∧
    ((j : ℤ) = max 0 d.exponent ∨ 2 ^ 64 ≤ d.digits * 10 ^ (j + 1))

variable {d : Decimal}

/-- A decimal with places after the point is taken as it is. -/
theorem exists_isPositional_of_neg (negative : Bool) (he : d.exponent < 0)
    (hlt : d.digits < 2 ^ 64) : ∃ n, IsPositional n negative d := by
  obtain ⟨n, hread, hneg, hexp, hdigits, hlength⟩ := readNumeral_positional_of_neg negative he
  refine ⟨n, hread, hneg, hexp, ?_, fun hnil => ?_, 0, ?_, by omega, by rwa [pow_zero, mul_one],
    .inl (by rw [Nat.cast_zero]; omega)⟩
  · rw [toRat, hexp, hdigits, hlength, Option.getD_none, zero_sub, neg_neg, Decimal.toRat]
  · rw [hnil, List.length_nil, Nat.cast_zero] at hlength
    omega
  · have htotal : Nat.ofDigitChars 10 n.fraction (Nat.ofDigitChars 10 n.whole 0) = d.digits := by
      rw [← Nat.ofDigitChars_append]
      exact hdigits
    have hwhole := (le_ofDigitChars n.fraction _).trans_lt (htotal ▸ hlt)
    have hfraction := appendDigits_eq (htotal ▸ hlt)
    rw [htotal] at hfraction
    simp only [decimal, appendDigits_eq hwhole, hfraction, hexp, hlength, Option.getD_none,
      Nat.cast_zero, zero_add, pow_zero, mul_one, sub_zero, zero_sub, neg_neg]

/-- A whole number of units is taken with as many of its zeros as fit. -/
theorem exists_isPositional_of_nonneg (negative : Bool) (hd : d.digits ≠ 0 ∨ d.exponent ≤ 0)
    (he : 0 ≤ d.exponent) (hlt : d.digits < 2 ^ 64) : ∃ n, IsPositional n negative d := by
  obtain ⟨j, hj, hzeros, hfits, hlast⟩ := exists_appendDigits_zeros hlt d.exponent.toNat
  have hexp : (d.exponent.toNat : ℤ) = d.exponent := Int.toNat_of_nonneg he
  have hmax : max 0 d.exponent = d.exponent.toNat := by rw [hexp, max_eq_right he]
  have hdigits : Numeral.digits ⟨negative, d.positional, [], none⟩ =
      d.digits * 10 ^ d.exponent.toNat := by
    rw [digits, List.append_nil, ofDigitChars_positional he]
  have hwhole : appendDigits 0 d.positional = (d.digits * 10 ^ j, d.exponent.toNat - j) := by
    have hall : Nat.ofDigitChars 10 d.digitText 0 = d.digits := Nat.ofDigitChars_ten_toDigits
    rw [positional_of_nonneg he, appendDigits_append (hall.symm ▸ hlt), hall, hzeros]
  refine ⟨_, readNumeral_positional_of_nonneg negative hd he, rfl, rfl, ?_, fun _ => ?_, j, ?_, ?_,
    hfits, ?_⟩
  · rw [toRat, hdigits, Option.getD_none, List.length_nil, Nat.cast_zero, sub_zero, zpow_zero,
      mul_one, Nat.cast_mul, Nat.cast_pow, Nat.cast_ofNat, Decimal.toRat, ← zpow_natCast, hexp]
  · rw [hdigits, positional_eq_toDigits hd he]
  · have hcount : ((d.exponent.toNat - j : ℕ) : ℤ) = d.exponent - j := by omega
    simp only [decimal, hwhole, appendDigits, Option.getD_none, List.length_nil, hcount,
      Nat.cast_zero, zero_add, add_zero, sub_zero]
  · rw [hmax]
    exact_mod_cast hj
  · rw [hmax]
    exact_mod_cast hlast

namespace IsPositional

variable {n : Numeral} {negative : Bool}

theorem digits_decimal_ne_zero (h : n.IsPositional negative d) (hd : d.digits ≠ 0) :
    n.decimal.digits ≠ 0 := by
  obtain ⟨j, hj, -⟩ := h.decimal_eq
  rw [hj]
  exact Nat.mul_ne_zero hd (pow_ne_zero j (by decide))

/-- The digits that are taken denote the decimal. -/
theorem toRat_decimal (h : n.IsPositional negative d) : n.decimal.toRat = d.toRat := by
  obtain ⟨j, hj, -⟩ := h.decimal_eq
  rw [hj, Decimal.toRat, Decimal.toRat, zpow_sub₀ (by norm_num), zpow_natCast]
  push_cast
  field_simp

theorem exponent_decimal_bounds (h : n.IsPositional negative d) (hlow : -324 ≤ d.exponent)
    (hhigh : d.exponent ≤ 308) : -324 ≤ n.decimal.exponent ∧ n.decimal.exponent ≤ 308 := by
  obtain ⟨j, hj, hle, -⟩ := h.decimal_eq
  rw [hj]
  show -324 ≤ d.exponent - j ∧ d.exponent - j ≤ 308
  omega

/-- Three zeros of the greatest finite decimals are taken. -/
theorem decimal_eq_of_great {k : ℕ} (h : n.IsPositional negative ⟨k, 292⟩)
    (hfits : k * 10 ^ 3 < 2 ^ 64) (hlong : 2 ^ 64 ≤ k * 10 ^ 4) :
    n.decimal = ⟨k * 10 ^ 3, 289⟩ := by
  obtain ⟨j, hj, -, hlt, hlast⟩ := h.decimal_eq
  have hmono {i l : ℕ} (hil : i ≤ l) : k * 10 ^ i ≤ k * 10 ^ l :=
    Nat.mul_le_mul_left k (Nat.pow_le_pow_right (by decide) hil)
  have hlow : 3 ≤ j := by
    by_contra! hsmall
    rcases hlast with heq | hge
    · have hall : (j : ℤ) = 292 := heq
      omega
    · exact absurd (hge.trans (hmono hsmall)) (not_le.mpr hfits)
  have hhigh : j ≤ 3 := by
    by_contra! hlarge
    exact absurd (hlong.trans (hmono hlarge)) (not_le.mpr hlt)
  obtain rfl : j = 3 := le_antisymm hhigh hlow
  exact hj

end IsPositional

/-- The integer that the digits of a numeral denote. -/
def toInt (n : Numeral) : ℤ := if n.negative then -n.digits else n.digits

/-- A numeral is read as an integer only where it has no fraction, is not a negative zero and
fits. -/
theorem of_integer?_eq_some {n : Numeral} {k : Int64} (h : n.integer? = some k) :
    n.fraction = [] ∧ ¬ (n.negative = true ∧ n.digits = 0) ∧ n.toInt = k.toInt := by
  have heq : n.integer? =
      if n.fraction ≠ [] ∨ n.exponent? ≠ none ∨ (n.negative = true ∧ n.digits = 0) then none
      else if Int64.minValue.toInt ≤ n.toInt ∧ n.toInt ≤ Int64.maxValue.toInt
        then some (Int64.ofInt n.toInt) else none := rfl
  rw [heq] at h
  split_ifs at h with hnone hrange
  simp only [not_or, not_not] at hnone
  refine ⟨hnone.1, hnone.2.2, ?_⟩
  rw [← Option.some.inj h, Int64.toInt_ofInt_of_le hrange.1 (Int.lt_of_le_sub_one hrange.2)]

end Numeral

/-! ### Reading a numeral -/

/-- A numeral starts with a digit or a minus sign. -/
theorem isDigit_or_minus_of_readNumeral {c : Char} {cs : List Char} {p : Numeral × List Char}
    (h : readNumeral (c :: cs) = some p) : c.isDigit = true ∨ c = '-' := by
  by_contra! hc
  have hsign : readSign (c :: cs) = (false, c :: cs) := by
    rw [readSign.eq_def]
    split
    · rename_i heq
      exact absurd (List.cons.inj heq).1 hc.2
    · rfl
  have hwhole : readWhole (c :: cs) = none := by
    rw [readWhole.eq_def]
    split
    · rename_i heq
      exact absurd (by rw [(List.cons.inj heq).1]; rfl) hc.1
    · rw [readDigits, List.takeWhile_cons_of_neg hc.1]
      rfl
  rw [readNumeral, hsign] at h
  simp only [hwhole, Option.bind_eq_bind, Option.bind_none] at h
  cases h

theorem tokens?_of_readToken_eq_none {c : Char} {cs : List Char} (hspace : isSpace c = false)
    (h : readToken (c :: cs) = none) : tokens? (c :: cs) = none := by
  rw [tokens?, if_neg (by simp [hspace])]
  split
  · rfl
  · rename_i hsome
    rw [h] at hsome
    cases hsome

/-- A text that is a numeral has its value. -/
theorem read?_of_readNumeral {cs : List Char} {n : Numeral} (h : readNumeral cs = some (n, [])) :
    read? (String.ofList cs) = n.value? := by
  rw [read?, String.toList_ofList]
  cases cs with
  | nil => cases h
  | cons c cs =>
    have hc := isDigit_or_minus_of_readNumeral h
    have htoken := readToken_numeral hc cs
    rw [h, Option.bind_some] at htoken
    cases hv : n.value? with
    | none =>
      rw [hv, Option.bind_none] at htoken
      rw [tokens?_of_readToken_eq_none (isSpace_of_numeral hc) htoken]
      rfl
    | some v =>
      rw [hv, Option.bind_some] at htoken
      rw [tokens?_token (isSpace_of_numeral hc) htoken, tokens?_nil]
      rfl

/-! ### Written doubles -/

section

variable (layout : Layout) {x : Double} {n : Numeral}

theorem text_float (hx : x.isFinite = true) :
    layout.text (.float x) = String.ofList (withMinus x.negative x.decimal.positional) := by
  rw [Layout.text, Layout.written, if_pos hx]
  rfl

theorem text_integer (k : Int64) :
    layout.text (.integer k) = String.ofList (integerText k.toInt) := by
  rw [Layout.text, Layout.written]

theorem isNearest_decimal (x : Double) : IsNearest x.decimal.toRat x.magnitude := by
  rw [Double.decimal]
  by_cases hzero : x.magnitude = 0
  · have hshortest : (shortest x.magnitude).toRat = Double.value 0 := by
      rw [shortest, if_pos hzero, Double.value_zero]
      exact zero_mul _
    rw [hshortest, hzero]
    exact .self 0
  · exact (Double.isCoarsest_shortest hzero).isNearest

/-- The text of a finite double is a numeral. -/
theorem exists_isPositional (x : Double) : ∃ n : Numeral, n.IsPositional x.negative x.decimal := by
  have hdigits : x.decimal.digits < 2 ^ 64 := by
    by_cases hzero : x.magnitude = 0
    · rw [Double.decimal, shortest, if_pos hzero]
      decide
    · exact ((Double.isCoarsest_shortest hzero).digits_lt hzero).trans (by decide)
  rcases lt_or_ge x.decimal.exponent 0 with hneg | hnonneg
  · exact Numeral.exists_isPositional_of_neg x.negative hneg hdigits
  · exact Numeral.exists_isPositional_of_nonneg x.negative
      (Double.digits_shortest_ne_zero x.magnitude) hnonneg hdigits

/-- The text of a double is `-0` only for a negative zero. -/
theorem text_eq_minus_zero_iff (hx : x.isFinite = true) (hn : n.IsPositional x.negative x.decimal)
    (hfraction : n.fraction = []) :
    layout.text (.float x) = "-0" ↔ n.negative = true ∧ n.digits = 0 := by
  have hread := hn.read
  rw [text_float layout hx, hn.positional_eq hfraction] at *
  constructor
  · intro h
    have hlist : withMinus x.negative (Nat.toDigits 10 n.digits) = ['-', '0'] := by
      rw [← String.toList_ofList (l := withMinus _ _), h]
      rfl
    rw [hlist] at hread
    obtain ⟨rfl, -⟩ := Prod.mk.inj (Option.some.inj (hread.symm.trans rfl))
    exact ⟨rfl, rfl⟩
  · rintro ⟨hneg, hzero⟩
    rw [← hn.negative_eq, hneg, hzero]
    rfl

/-- A double whose text is that of an integer of sixty-four bits is read as the integer, which it is
nearest to. -/
theorem read?_text_of_integer {k : Int64} (hx : x.isFinite = true)
    (hn : n.IsPositional x.negative x.decimal) (hfraction : n.fraction = [])
    (hminus : layout.text (.float x) ≠ "-0") (hk : n.toInt = k.toInt) :
    read? (layout.text (.float x)) = some (.integer k) ∧
      Double.ofMagnitude (decide (k.toInt < 0)) (nearestTo ⟨k.toInt.natAbs, 0⟩) = x ∧
      layout.text (.integer k) = layout.text (.float x) := by
  rw [ne_eq, text_eq_minus_zero_iff layout hx hn hfraction] at hminus
  have habs : k.toInt.natAbs = n.digits := by
    rw [← hk, Numeral.toInt]
    split <;> omega
  have hsign : decide (k.toInt < 0) = x.negative := by
    rw [← hn.negative_eq, ← hk, Numeral.toInt]
    cases hneg : n.negative with
    | true =>
      have hpos : n.digits ≠ 0 := fun hzero => hminus ⟨hneg, hzero⟩
      rw [if_pos rfl, decide_eq_true_eq]
      omega
    | false =>
      rw [if_neg Bool.false_ne_true, decide_eq_false_iff_not]
      omega
  have htext : layout.text (.integer k) = layout.text (.float x) := by
    rw [text_integer, text_float layout hx, integerText_eq_withMinus, hsign, habs,
      hn.positional_eq hfraction]
  refine ⟨?_, ?_, htext⟩
  · have hread := readNumeral_integerText k.toInt endsNumeral_nil
    rw [List.append_nil] at hread
    rw [← htext, text_integer, read?_of_readNumeral hread, value?_integerText]
  · have hrat : n.toRat = n.digits := by
      rw [Numeral.toRat, hn.exponent_eq, hfraction, Option.getD_none, List.length_nil,
        Nat.cast_zero, sub_zero, zpow_zero, mul_one]
    have hround := isNearest_decimal x
    rw [← hn.toRat_eq, hrat] at hround
    rw [hsign, habs, (Double.isNearest_natCast n.digits).unique hround,
      Double.ofMagnitude_negative_magnitude]

theorem isSome_scale?_of_great {m k : ℕ} (hn : n.IsPositional x.negative x.decimal)
    (hm : x.magnitude = m) (hdecimal : shortest m = ⟨k, 292⟩) (hfits : k * 10 ^ 3 < 2 ^ 64)
    (hlong : 2 ^ 64 ≤ k * 10 ^ 4) :
    (Double.scale? (nearestTo ⟨n.decimal.digits, 0⟩) n.decimal.exponent).isSome =
      decide (Double.product (nearestTo ⟨k * 10 ^ 3, 0⟩) (Double.tenPower 289) < infinite) := by
  rw [Double.decimal, hm, hdecimal] at hn
  have hk : k * 10 ^ 3 ≠ 0 := by omega
  rw [hn.decimal_eq_of_great hfits hlong, Double.scale?_of_nonneg
    (Double.nearestTo_natCast_ne_zero hk) (show (0 : ℤ) ≤ 289 by decide)
    (show (289 : ℤ) ≤ 308 by decide)]
  split_ifs with h
  · exact (decide_eq_true h).symm
  · exact (decide_eq_false h).symm

/-- Of the three greatest finite magnitudes, scaling makes only the first infinite. -/
theorem isSome_scale?_of_greatest (hn : n.IsPositional x.negative x.decimal) :
    (x.magnitude = infinite - 1 →
      (Double.scale? (nearestTo ⟨n.decimal.digits, 0⟩) n.decimal.exponent).isSome = false) ∧
    (x.magnitude = infinite - 2 ∨ x.magnitude = infinite - 3 →
      (Double.scale? (nearestTo ⟨n.decimal.digits, 0⟩) n.decimal.exponent).isSome = true) := by
  refine ⟨fun hm => ?_, fun hm => hm.elim (fun hm => ?_) fun hm => ?_⟩
  · rw [isSome_scale?_of_great hn hm (k := 17976931348623157) (by decide +kernel) (by decide)
      (by decide)]
    decide +kernel
  · rw [isSome_scale?_of_great hn hm (k := 17976931348623155) (by decide +kernel) (by decide)
      (by decide)]
    decide +kernel
  · rw [isSome_scale?_of_great hn hm (k := 17976931348623153) (by decide +kernel) (by decide)
      (by decide)]
    decide +kernel

/-- The greatest finite magnitude is the only one that scaling makes infinite. -/
theorem scale?_decimal (hx : x.isFinite = true) (hn : n.IsPositional x.negative x.decimal) :
    x.magnitude + 1 = infinite ∧
        Double.scale? (nearestTo ⟨n.decimal.digits, 0⟩) n.decimal.exponent = none ∨
      x.magnitude + 1 ≠ infinite ∧ ∃ p,
        Double.scale? (nearestTo ⟨n.decimal.digits, 0⟩) n.decimal.exponent = some p ∧
        p ≤ x.magnitude + 3 ∧ x.magnitude ≤ p + 3 := by
  have hfinite : x.magnitude < infinite := of_decide_eq_true hx
  have hround : IsNearest n.decimal.toRat x.magnitude := hn.toRat_decimal ▸ isNearest_decimal x
  obtain ⟨hfirst, hothers⟩ := isSome_scale?_of_greatest hn
  by_cases hzero : x.magnitude = 0
  · have hdecimal : x.decimal = ⟨0, 0⟩ := by rw [Double.decimal, shortest, if_pos hzero]
    obtain ⟨j, hj, -⟩ := hn.decimal_eq
    refine .inr ⟨by rw [hzero]; decide, 0, ?_, Nat.zero_le _, hzero.le.trans (Nat.zero_le _)⟩
    rw [hj, hdecimal, Double.nearestTo_of_digits_eq_zero (Nat.zero_mul _), Double.scale?_zero]
  have hcoarsest := Double.isCoarsest_shortest hzero
  obtain ⟨hlow, hhigh⟩ := hcoarsest.exponent_bounds hzero hfinite
  obtain ⟨hlow', hhigh'⟩ := hn.exponent_decimal_bounds hlow hhigh
  have hdigits := hn.digits_decimal_ne_zero (hcoarsest.digits_ne_zero hzero)
  by_cases hgreatest : x.magnitude + 1 = infinite
  · exact .inl ⟨hgreatest, Option.not_isSome_iff_eq_none.mp (by simp [hfirst (by omega)])⟩
  · refine .inr ⟨hgreatest, ?_⟩
    rcases Double.scale?_le_add_three hround hdigits hlow' hhigh' with h | ⟨hnone, hinfinite⟩
    · exact h
    · have hsome := hothers (by omega)
      rw [hnone] at hsome
      cases hsome

theorem value?_of_integer?_eq_none (h : n.integer? = none) :
    n.value? = (Double.ofDecimal? n.negative n.decimal).map .float := by
  rw [Numeral.value?, h]

/-- A double whose text is not that of an integer of sixty-four bits is read as a double that is at
most three steps away, unless it has the greatest magnitude, whose text is not read. -/
theorem read?_text_of_not_integer (hx : x.isFinite = true)
    (hn : n.IsPositional x.negative x.decimal)
    (hinteger : ∀ k : Int64,
      ¬ (n.fraction = [] ∧ layout.text (.float x) ≠ "-0" ∧ n.toInt = k.toInt)) :
    x.magnitude + 1 = infinite ∧ read? (layout.text (.float x)) = none ∨
      x.magnitude + 1 ≠ infinite ∧ ∃ y : Double, read? (layout.text (.float x)) = some (.float y) ∧
        y.isFinite = true ∧ y.negative = x.negative ∧ y.magnitude ≤ x.magnitude + 3 ∧
        x.magnitude ≤ y.magnitude + 3 ∧ ∀ m, Double.value m = n.decimal.digits →
          n.decimal.exponent.natAbs ≤ 22 → y = x := by
  have hnone : n.integer? = none := by
    cases hk : n.integer? with
    | none => rfl
    | some k =>
      obtain ⟨hfraction, hminus, hint⟩ := Numeral.of_integer?_eq_some hk
      have htext := mt (text_eq_minus_zero_iff layout hx hn hfraction).mp hminus
      exact absurd ⟨hfraction, htext, hint⟩ (hinteger k)
  have hread : read? (layout.text (.float x)) =
      ((Double.scale? (nearestTo ⟨n.decimal.digits, 0⟩) n.decimal.exponent).map
        (Double.ofMagnitude x.negative)).map .float := by
    rw [text_float layout hx, read?_of_readNumeral hn.read, value?_of_integer?_eq_none hnone,
      Double.ofDecimal?, hn.negative_eq]
  rcases scale?_decimal hx hn with ⟨hgreatest, hscale⟩ | ⟨hgreatest, p, hscale, hup, hdown⟩
  · rw [hscale] at hread
    exact .inl ⟨hgreatest, hread⟩
  have hfinite : x.magnitude < infinite := of_decide_eq_true hx
  have hp : p < infinite := by
    obtain ⟨j, hj, -, hfits, -⟩ := hn.decimal_eq
    refine Double.scale?_lt_infinite (Double.nearestTo_natCast_lt_infinite ?_) hscale
    rw [hj]
    exact hfits.le
  have hp63 : p < 1 <<< 63 := hp.trans (by decide)
  have hmagnitude := Double.magnitude_ofMagnitude (b := x.negative) hp63
  rw [hscale] at hread
  refine .inr ⟨hgreatest, Double.ofMagnitude x.negative p, hread, decide_eq_true ?_,
    Double.negative_ofMagnitude hp63, ?_, ?_, fun m hm he => ?_⟩
  · rwa [hmagnitude]
  · rwa [hmagnitude]
  · rwa [hmagnitude]
  · have hround : IsNearest n.decimal.toRat x.magnitude := hn.toRat_decimal ▸ isNearest_decimal x
    obtain rfl := Option.some.inj
      (hscale.symm.trans (Double.scale?_of_exact hround hfinite hm he))
    exact x.ofMagnitude_negative_magnitude

/-- Numbers that are not finite are written as null.  The text of a finite double is a number
without an exponent that has its sign and rounds to it.  Where it is that of an integer of
sixty-four bits, it is read as the integer, the double is nearest to that, and the integer has the
same text.  Otherwise it is read as a finite double with the same sign that is at most three steps
away, and not away at all where the digits that are taken are exact and the power of ten is small;
only the text of the greatest magnitude is not read. -/
theorem read?_text_float (x : Double) :
    (x.isFinite = false → layout.text (.float x) = "null") ∧
    (x.isFinite = true →
      NumberText (layout.text (.float x)).toList ∧
      ∃ n : Numeral, readNumeral (layout.text (.float x)).toList = some (n, []) ∧
        n.exponent? = none ∧ n.negative = x.negative ∧ IsNearest n.toRat x.magnitude ∧
        (∀ k : Int64, n.fraction = [] → layout.text (.float x) ≠ "-0" → n.toInt = k.toInt →
          read? (layout.text (.float x)) = some (.integer k) ∧
          Double.ofMagnitude (decide (k.toInt < 0)) (nearestTo ⟨k.toInt.natAbs, 0⟩) = x ∧
          layout.text (.integer k) = layout.text (.float x)) ∧
        ((∀ k : Int64,
            ¬ (n.fraction = [] ∧ layout.text (.float x) ≠ "-0" ∧ n.toInt = k.toInt)) →
          x.magnitude + 1 = infinite ∧ read? (layout.text (.float x)) = none ∨
          x.magnitude + 1 ≠ infinite ∧
            ∃ y : Double, read? (layout.text (.float x)) = some (.float y) ∧
              y.isFinite = true ∧ y.negative = x.negative ∧ y.magnitude ≤ x.magnitude + 3 ∧
              x.magnitude ≤ y.magnitude + 3 ∧ ∀ m, Double.value m = n.decimal.digits →
                n.decimal.exponent.natAbs ≤ 22 → y = x)) := by
  refine ⟨fun hx => ?_, fun hx => ?_⟩
  · rw [Layout.text, Layout.written, if_neg (by simp [hx])]
    rfl
  · obtain ⟨n, hn⟩ := exists_isPositional x
    have hlist : (layout.text (.float x)).toList = withMinus x.negative x.decimal.positional := by
      rw [text_float layout hx, String.toList_ofList]
    refine ⟨hlist ▸ numberText_plainText x, n, hlist ▸ hn.read, hn.exponent_eq, hn.negative_eq,
      hn.toRat_eq ▸ isNearest_decimal x, fun k => read?_text_of_integer layout hx hn,
      read?_text_of_not_integer layout hx hn⟩

end

/-- The text of the double nearest to a tenth is read as that double. -/
theorem read?_text_float_of_tenth :
    let x : Double := ⟨0x3FB999999999999A⟩
    x.isFinite = true ∧ Layout.compact.text (.float x) = "0.1" ∧ read? "0.1" = some (.float x) := by
  intro x
  have hx : x.isFinite = true := by decide
  have htext : Layout.compact.text (.float x) = "0.1" := by
    rw [text_float .compact hx]
    decide +kernel
  obtain ⟨-, n, hread, -, -, -, -, hfloat⟩ := (read?_text_float .compact x).2 hx
  rw [htext] at hread hfloat
  obtain ⟨rfl, -⟩ := Prod.mk.inj (Option.some.inj (hread.symm.trans
    (by decide +kernel : _ = some (⟨false, ['0'], ['1'], none⟩, []))))
  obtain ⟨hgreatest, -⟩ | ⟨-, y, hy, -, -, -, -, hexact⟩ := hfloat fun k h => by simp at h
  · exact absurd hgreatest (by decide)
  · obtain ⟨m, hm⟩ := Double.exists_value_eq_natCast (a := 1) (by decide)
    exact ⟨hx, htext, hexact m hm (by decide) ▸ hy⟩

/-- A double that is not read back: its text has a fraction, and is read as the double below it. -/
theorem read?_text_float_ne :
    let x : Double := ⟨0x405A55F4599F1594⟩
    x.isFinite = true ∧ Layout.compact.text (.float x) = "105.34303894553733" ∧
      read? (Layout.compact.text (.float x)) = some (.float ⟨0x405A55F4599F1593⟩) ∧
      ⟨0x405A55F4599F1593⟩ ≠ x := by
  intro x
  have hx : x.isFinite = true := by decide
  have htext : Layout.compact.text (.float x) = "105.34303894553733" := by
    rw [text_float .compact hx]
    decide +kernel
  have hread : readNumeral "105.34303894553733".toList =
      some (⟨false, "105".toList, "34303894553733".toList, none⟩, []) := by decide +kernel
  have hdecimal : Numeral.decimal ⟨false, "105".toList, "34303894553733".toList, none⟩ =
      ⟨10534303894553733, -14⟩ := by decide +kernel
  have hscale : Double.scale? (nearestTo ⟨10534303894553733, 0⟩) (-14) =
      some 0x405A55F4599F1593 := by
    rw [Double.scale?_of_neg (Double.nearestTo_natCast_ne_zero (by decide)) (by decide) (by decide)]
    decide +kernel
  refine ⟨hx, htext, ?_, by decide⟩
  rw [htext, ← String.ofList_toList (s := "105.34303894553733"), read?_of_readNumeral hread,
    value?_of_integer?_eq_none rfl, hdecimal, Double.ofDecimal?, hscale]
  rfl

end Comprehension.Json
