import Comprehension.Proofs.Double.Rounding
import Comprehension.Proofs.Json.Grammar

/-!
# Decimals as numerals

The texts of decimals are numerals that denote them, with all their digits: positional texts have
no exponent, and scientific ones have that of their leading digit.

## Main definitions

* `Json.Numeral.toRat`: the rational number of a numeral, without its sign.
* `Json.withMinus`: a text behind an optional minus sign.
* `Json.joined`: the digits of a numeral with the point between them.

## Main results

* `Json.readNumeral_joined`: digits that are joined by a point are read back.
* `Json.exists_joined_positional`: the digits of a positional text.
* `Json.readNumeral_scientific`: the numeral of a scientific text denotes the decimal.
-/

namespace Comprehension.Json

/-- The rational number of a numeral, without its sign. -/
def Numeral.toRat (n : Numeral) : ℚ :=
  n.digits * 10 ^ (n.exponent?.getD 0 - n.fraction.length)

/-- A text behind an optional minus sign. -/
def withMinus (negative : Bool) (cs : List Char) : List Char := if negative then '-' :: cs else cs

/-- Digits before and after a point, which is left out where none follow it. -/
def joined (whole fraction : List Char) : List Char :=
  if fraction = [] then whole else whole ++ '.' :: fraction

/-- An integer is written with its sign before its digits. -/
theorem integerText_eq_withMinus (k : ℤ) :
    integerText k = withMinus (decide (k < 0)) (Nat.toDigits 10 k.natAbs) := by
  cases k with
  | ofNat n =>
    have hnonneg : ¬ Int.ofNat n < 0 := not_lt.mpr (Int.natCast_nonneg n)
    rw [decide_eq_false hnonneg]
    rfl
  | negSucc n =>
    rw [decide_eq_true (Int.negSucc_lt_zero n)]
    rfl

/-! ### Reading -/

/-- A text continues neither digits nor a point. -/
def EndsFraction (cs : List Char) : Prop := ∀ c ∈ cs.head?, c.isDigit = false ∧ c ≠ '.'

theorem EndsFraction.endsDigits {cs : List Char} (h : EndsFraction cs) : EndsDigits cs :=
  fun c hc => (h c hc).1

theorem endsFraction_nil : EndsFraction [] := by
  rintro c ⟨⟩

theorem endsFraction_cons_e (cs : List Char) : EndsFraction ('e' :: cs) := by
  rintro c ⟨⟩
  exact ⟨rfl, by decide⟩

/-- Digits without a leading zero are read up to a text that does not continue them. -/
theorem readWhole_append {ds rest : List Char} (hds : WholeText ds) (hrest : EndsDigits rest) :
    readWhole (ds ++ rest) = some (ds, rest) := by
  rw [readWhole.eq_def]
  split
  · rename_i cs heq
    obtain ⟨c, ds', rfl⟩ := List.exists_cons_of_ne_nil hds.1.1
    obtain ⟨rfl, htail⟩ := List.cons.inj heq
    obtain rfl : ds' = [] := (List.cons.inj (hds.2 rfl)).2
    rw [← htail]
    rfl
  · exact readDigits_append hds.1.1 hds.1.2 hrest

theorem readSign_withMinus (negative : Bool) {cs : List Char} (h : cs.head? ≠ some '-') :
    readSign (withMinus negative cs) = (negative, cs) := by
  cases negative with
  | true => rfl
  | false =>
    show readSign cs = (false, cs)
    rw [readSign.eq_def]
    split
    · exact absurd rfl h
    · rfl

/-- Digits that are joined by a point are read back, with the exponent behind them. -/
theorem readNumeral_joined (negative : Bool) {whole fraction rest rest' : List Char}
    {exponent? : Option Int} (hwhole : WholeText whole)
    (hfraction : ∀ c ∈ fraction, c.isDigit = true) (hrest : EndsFraction rest)
    (hexponent : readExponent rest = some (exponent?, rest')) :
    readNumeral (withMinus negative (joined whole fraction ++ rest)) =
      some (⟨negative, whole, fraction, exponent?⟩, rest') := by
  have hhead (cs : List Char) : (whole ++ cs).head? ≠ some '-' := by
    obtain ⟨c, ds, rfl⟩ := List.exists_cons_of_ne_nil hwhole.1.1
    rintro ⟨⟩
    exact absurd (hwhole.1.2 '-' List.mem_cons_self) (by decide)
  by_cases hnil : fraction = []
  · have hpoint : readFraction rest = some ([], rest) := by
      rw [readFraction.eq_def]
      split
      · exact absurd rfl (hrest '.' rfl).2
      · rfl
    rw [joined, if_pos hnil, readNumeral, readSign_withMinus _ (hhead rest)]
    simp only [readWhole_append hwhole hrest.endsDigits, hpoint, hexponent, hnil,
      Option.bind_eq_bind, Option.bind_some, Option.pure_def]
  · have hpoint : readFraction ('.' :: (fraction ++ rest)) = some (fraction, rest) :=
      readDigits_append hnil hfraction hrest.endsDigits
    have hends : EndsDigits ('.' :: (fraction ++ rest)) := by
      rintro c ⟨⟩
      rfl
    rw [joined, if_neg hnil, List.append_assoc, List.cons_append, readNumeral,
      readSign_withMinus _ (hhead _)]
    simp only [readWhole_append hwhole hends, hpoint, hexponent, Option.bind_eq_bind,
      Option.bind_some, Option.pure_def]

/-- The exponent of a scientific text is read back. -/
theorem readExponent_integerText (plus : Bool) (k : ℤ) :
    readExponent ('e' :: ((if plus && 0 ≤ k then ['+'] else []) ++ integerText k)) =
      some (some k, []) := by
  have hread (n : ℕ) : readDigits (Nat.toDigits 10 n) = some (Nat.toDigits 10 n, []) := by
    have h := readDigits_append (digits_toDigits n).1 (digits_toDigits n).2
      endsNumeral_nil.endsDigits
    rwa [List.append_nil] at h
  have hsigned : readSignedDigits ((if plus && 0 ≤ k then ['+'] else []) ++ integerText k) =
      some (k, []) := by
    cases k with
    | negSucc n =>
      have hneg : ¬ 0 ≤ Int.negSucc n := by omega
      simp only [hneg, decide_false, Bool.and_false, Bool.false_eq_true, if_false,
        List.nil_append, integerText, readSignedDigits, hread, Option.map_some,
        Nat.ofDigitChars_ten_toDigits]
      rfl
    | ofNat n =>
      cases plus with
      | true =>
        show readSignedDigits ('+' :: Nat.toDigits 10 n) = _
        simp only [readSignedDigits, hread, Option.map_some, Nat.ofDigitChars_ten_toDigits]
        rfl
      | false =>
        show readSignedDigits (Nat.toDigits 10 n) = _
        have hdigit : ∀ c ∈ (Nat.toDigits 10 n).head?, c.isDigit = true := fun c hc =>
          isDigit_of_mem_toDigits (List.mem_of_mem_head? hc)
        rw [readSignedDigits.eq_def]
        split
        · rename_i heq
          exact absurd (hdigit '-' (heq ▸ rfl)) (by decide)
        · rename_i heq
          exact absurd (hdigit '+' (heq ▸ rfl)) (by decide)
        · rw [hread, Option.map_some, Nat.ofDigitChars_ten_toDigits]
          rfl
  rw [readExponent, hsigned]
  rfl

/-! ### Digits and points -/

/-- The digits on both sides of a point. -/
theorem exists_joined_pointed (n places : ℕ) :
    ∃ whole fraction, Decimal.pointed (Nat.toDigits 10 n) places = joined whole fraction ∧
      WholeText whole ∧ (∀ c ∈ fraction, c.isDigit = true) ∧ fraction.length = places ∧
      Nat.ofDigitChars 10 (whole ++ fraction) 0 = n := by
  have hdigits := digits_toDigits n
  rw [Decimal.pointed]
  split_ifs with hzero hlt
  · refine ⟨Nat.toDigits 10 n, [], rfl, wholeText_toDigits n, List.forall_mem_nil _, hzero.symm, ?_⟩
    rw [List.append_nil, Nat.ofDigitChars_ten_toDigits]
  · have hdrop := hdigits.drop (k := (Nat.toDigits 10 n).length - places) (by omega)
    refine ⟨_, _, (if_neg hdrop.1).symm, wholeText_take_toDigits (by omega) (by omega), hdrop.2,
      ?_, ?_⟩
    · rw [List.length_drop]
      omega
    · rw [List.take_append_drop, Nat.ofDigitChars_ten_toDigits]
  · refine ⟨['0'], List.replicate (places - (Nat.toDigits 10 n).length) '0' ++ Nat.toDigits 10 n,
      (if_neg (List.append_ne_nil_of_right_ne_nil _ hdigits.1)).symm, wholeText_zero,
      fun c hc => ?_, ?_, ?_⟩
    · exact (List.mem_append.mp hc).elim isDigit_of_mem_zeros (hdigits.2 c)
    · rw [List.length_append, List.length_replicate]
      omega
    · rw [← List.append_assoc, Nat.ofDigitChars_append, ← List.replicate_one,
        ← List.replicate_add, Nat.ofDigitChars_replicate_zero, Nat.mul_zero,
        Nat.ofDigitChars_ten_toDigits]

/-- The digits of a number with zeros behind them. -/
theorem toDigits_mul_ten_pow {n : ℕ} (hn : 0 < n) (k : ℕ) :
    Nat.toDigits 10 (n * 10 ^ k) = Nat.toDigits 10 n ++ List.replicate k '0' := by
  induction k with
  | zero => rw [pow_zero, mul_one, List.replicate_zero, List.append_nil]
  | succ k ih =>
    have h := Nat.toDigits_append_toDigits (b := 10) (n := n * 10 ^ k) (d := 0) (by decide)
      (by positivity) (by decide)
    rw [Nat.toDigits_zero, ih, List.append_assoc, ← List.replicate_succ'] at h
    rw [h, pow_succ', mul_left_comm, Nat.add_zero]

variable {d : Decimal}

/-- The text of a whole number of units has its zeros. -/
theorem positional_of_nonneg (he : 0 ≤ d.exponent) :
    d.positional = d.digitText ++ List.replicate d.exponent.toNat '0' := by
  obtain ⟨k, hk⟩ := Int.eq_ofNat_of_zero_le he
  rw [Decimal.positional, hk]
  rfl

/-- The digits of a whole number of units. -/
theorem ofDigitChars_positional (he : 0 ≤ d.exponent) :
    Nat.ofDigitChars 10 d.positional 0 = d.digits * 10 ^ d.exponent.toNat := by
  rw [positional_of_nonneg he, Decimal.digitText, Nat.ofDigitChars_append,
    Nat.ofDigitChars_ten_toDigits, Nat.ofDigitChars_replicate_zero, Nat.mul_comm]

/-- A whole number of units is written as its digits, unless it is zero followed by zeros. -/
theorem positional_eq_toDigits (hd : d.digits ≠ 0 ∨ d.exponent ≤ 0) (he : 0 ≤ d.exponent) :
    d.positional = Nat.toDigits 10 (d.digits * 10 ^ d.exponent.toNat) := by
  rw [positional_of_nonneg he, Decimal.digitText]
  rcases Nat.eq_zero_or_pos d.digits with hzero | hpos
  · have hnone : d.exponent.toNat = 0 := by
      have := hd.resolve_left (not_not.mpr hzero)
      omega
    rw [hnone, pow_zero, mul_one, List.replicate_zero, List.append_nil]
  · exact (toDigits_mul_ten_pow hpos _).symm

/-- The text of a whole number of units has no point. -/
theorem readNumeral_positional_of_nonneg (negative : Bool) (hd : d.digits ≠ 0 ∨ d.exponent ≤ 0)
    (he : 0 ≤ d.exponent) :
    readNumeral (withMinus negative d.positional) =
      some (⟨negative, d.positional, [], none⟩, []) := by
  have hwhole : WholeText d.positional := by
    rw [positional_eq_toDigits hd he]
    exact wholeText_toDigits _
  have h := readNumeral_joined negative hwhole (List.forall_mem_nil _) endsFraction_nil
    (readExponent_of_endsNumeral endsNumeral_nil)
  rwa [List.append_nil, joined, if_pos rfl] at h

/-- The text of a decimal with places after the point. -/
theorem readNumeral_positional_of_neg (negative : Bool) (he : d.exponent < 0) :
    ∃ n, readNumeral (withMinus negative d.positional) = some (n, []) ∧ n.negative = negative ∧
      n.exponent? = none ∧ n.digits = d.digits ∧ (n.fraction.length : ℤ) = -d.exponent := by
  obtain ⟨k, hk⟩ := Int.eq_negSucc_of_lt_zero he
  obtain ⟨whole, fraction, htext, hwhole, hfraction, hlength, hdigits⟩ :=
    exists_joined_pointed d.digits (k + 1)
  have h := readNumeral_joined negative hwhole hfraction endsFraction_nil
    (readExponent_of_endsNumeral endsNumeral_nil)
  rw [List.append_nil, ← htext] at h
  refine ⟨⟨negative, whole, fraction, none⟩, ?_, rfl, rfl, hdigits, ?_⟩
  · rw [Decimal.positional, hk]
    exact h
  · rw [hlength, hk]
    rfl

/-- A text without an exponent is a numeral that denotes the decimal. -/
theorem exists_readNumeral_positional (negative : Bool) (hd : d.digits ≠ 0 ∨ d.exponent ≤ 0) :
    ∃ n, readNumeral (withMinus negative d.positional) = some (n, []) ∧ n.negative = negative ∧
      n.toRat = d.toRat := by
  rcases lt_or_ge d.exponent 0 with hlt | hge
  · obtain ⟨n, hread, hneg, hexp, hdigits, hlength⟩ := readNumeral_positional_of_neg negative hlt
    refine ⟨n, hread, hneg, ?_⟩
    rw [Numeral.toRat, hexp, hdigits, hlength, Option.getD_none, zero_sub, neg_neg, Decimal.toRat]
  · refine ⟨_, readNumeral_positional_of_nonneg negative hd hge, rfl, ?_⟩
    simp only [Numeral.toRat, Numeral.digits, List.append_nil, ofDigitChars_positional hge,
      Option.getD_none, List.length_nil, Nat.cast_zero, sub_zero, zpow_zero, mul_one, Decimal.toRat,
      Nat.cast_mul, Nat.cast_pow, Nat.cast_ofNat, ← zpow_natCast, Int.toNat_of_nonneg hge]

/-- A scientific text is a numeral that denotes the decimal. -/
theorem exists_readNumeral_scientific (negative plus : Bool) (d : Decimal) :
    ∃ n, readNumeral (withMinus negative (d.scientific plus)) = some (n, []) ∧
      n.negative = negative ∧ n.toRat = d.toRat := by
  obtain ⟨whole, fraction, htext, hwhole, hfraction, hlength, hdigits⟩ :=
    exists_joined_pointed d.digits (d.digitText.length - 1)
  have h := readNumeral_joined negative hwhole hfraction (endsFraction_cons_e _)
    (readExponent_integerText plus d.leading)
  rw [← htext] at h
  refine ⟨_, h, rfl, ?_⟩
  have hpos : 0 < d.digitText.length := List.length_pos_iff.mpr Nat.toDigits_ne_nil
  have hexponent : d.leading - (d.digitText.length - 1 : ℕ) = d.exponent := by
    rw [Decimal.leading, Nat.cast_pred hpos]
    ring
  simp only [Numeral.toRat, Numeral.digits, hdigits, hlength, Option.getD_some, hexponent,
    Decimal.toRat]

end Comprehension.Json
