import Comprehension.Json.Numeral
import Comprehension.Proofs.Text.Trimming

/-!
# Integers are read back

An integer of sixty-four bits is written by its digits after an optional minus sign, without a
leading zero, and such a numeral is read back as the same integer, provided that what follows does
not continue it.

## Main definitions

* `Json.EndsDigits`, `Json.EndsNumeral`: texts that continue neither digits nor a numeral.

## Main results

* `Json.readDigits_append`: digits are read up to a text that does not continue them.
* `Json.readNumeral_integerText`: the numeral of a written integer.
* `Json.value?_integerText`: the value of that numeral.
-/

namespace Comprehension.Json

/-! ### Digits -/

/-- The text does not start with a digit. -/
def EndsDigits (cs : List Char) : Prop := ∀ c ∈ cs.head?, c.isDigit = false

/-- The text starts neither with a digit nor with the start of a fraction or an exponent. -/
def EndsNumeral (cs : List Char) : Prop :=
  ∀ c ∈ cs.head?, c.isDigit = false ∧ c ≠ '.' ∧ c ≠ 'e' ∧ c ≠ 'E'

theorem EndsNumeral.endsDigits {cs : List Char} (h : EndsNumeral cs) : EndsDigits cs :=
  fun c hc => (h c hc).1

theorem endsNumeral_nil : EndsNumeral [] := by
  rintro c ⟨⟩

theorem endsNumeral_cons {c : Char} (h : c.isDigit = false ∧ c ≠ '.' ∧ c ≠ 'e' ∧ c ≠ 'E')
    (cs : List Char) : EndsNumeral (c :: cs) := by
  rintro d ⟨⟩
  exact h

/-- Digits are read up to a text that does not continue them. -/
theorem readDigits_append {ds rest : List Char} (hne : ds ≠ []) (hds : ∀ c ∈ ds, c.isDigit = true)
    (hrest : EndsDigits rest) : readDigits (ds ++ rest) = some (ds, rest) := by
  rw [readDigits, Text.takeWhile_append_of_head hds hrest, Text.dropWhile_append_of_head hds hrest]
  simp [hne]

theorem isDigit_of_mem_toDigits {n : Nat} {c : Char} (h : c ∈ Nat.toDigits 10 n) :
    c.isDigit = true :=
  Nat.isDigit_of_mem_toDigits (by decide) (by decide) h

/-- The digits of a positive number do not start with a zero. -/
theorem head?_toDigits_ne_zero {n : Nat} (hn : 0 < n) : (Nat.toDigits 10 n).head? ≠ some '0' := by
  induction n using Nat.base_induction 10 (by decide) with
  | single m hm =>
    have hdigit : ∀ m < 10, 0 < m → m.digitChar ≠ '0' := by decide
    rw [Nat.toDigits_of_lt_base hm, List.head?_cons]
    exact fun h => hdigit m hm hn (Option.some.inj h)
  | digit m k hk hm ih =>
    rw [← Nat.toDigits_append_toDigits (by decide) hm hk, List.head?_append]
    intro h
    cases hhead : (Nat.toDigits 10 m).head? with
    | none => exact Nat.toDigits_ne_nil (List.head?_eq_none_iff.mp hhead)
    | some c =>
      rw [hhead, Option.some_or] at h
      exact ih hm (hhead.trans h)

/-! ### Integers -/

theorem readWhole_toDigits (n : Nat) {rest : List Char} (hrest : EndsDigits rest) :
    readWhole (Nat.toDigits 10 n ++ rest) = some (Nat.toDigits 10 n, rest) := by
  rcases Nat.eq_zero_or_pos n with rfl | hn
  · rw [Nat.toDigits_zero]
    rfl
  · have hread : readDigits (Nat.toDigits 10 n ++ rest) = some (Nat.toDigits 10 n, rest) :=
      readDigits_append Nat.toDigits_ne_nil (fun c => isDigit_of_mem_toDigits) hrest
    have hhead := head?_toDigits_ne_zero hn
    rw [readWhole.eq_def]
    split
    · rename_i cs heq
      obtain ⟨c, ds, hds⟩ := List.exists_cons_of_ne_nil (Nat.toDigits_ne_nil (n := n) (b := 10))
      rw [hds, List.cons_append, List.cons.injEq] at heq
      rw [hds, heq.1] at hhead
      exact absurd rfl hhead
    · exact hread

theorem readFraction_of_endsNumeral {rest : List Char} (h : EndsNumeral rest) :
    readFraction rest = some ([], rest) := by
  rw [readFraction.eq_def]
  split
  · exact absurd rfl (h '.' rfl).2.1
  · rfl

theorem readExponent_of_endsNumeral {rest : List Char} (h : EndsNumeral rest) :
    readExponent rest = some (none, rest) := by
  rw [readExponent.eq_def]
  split
  · exact absurd rfl (h 'e' rfl).2.2.1
  · exact absurd rfl (h 'E' rfl).2.2.2
  · rfl

/-- Digits are no sign. -/
theorem readSign_toDigits (n : Nat) (rest : List Char) :
    readSign (Nat.toDigits 10 n ++ rest) = (false, Nat.toDigits 10 n ++ rest) := by
  obtain ⟨c, ds, hds⟩ := List.exists_cons_of_ne_nil (Nat.toDigits_ne_nil (n := n) (b := 10))
  have hc : c.isDigit = true := isDigit_of_mem_toDigits (hds ▸ List.mem_cons_self)
  rw [hds, List.cons_append, readSign.eq_def]
  split
  · rename_i heq
    obtain ⟨rfl, -⟩ := List.cons.inj heq
    exact absurd hc (by decide)
  · rfl

theorem readSign_integerText (k : Int) (rest : List Char) :
    readSign (integerText k ++ rest) = (decide (k < 0), Nat.toDigits 10 k.natAbs ++ rest) := by
  cases k with
  | ofNat n =>
    rw [integerText, readSign_toDigits]
    simp
  | negSucc n => simp [integerText, readSign, Int.negSucc_lt_zero]

/-- The numeral of an integer has its sign and its digits. -/
theorem readNumeral_integerText (k : Int) {rest : List Char} (hrest : EndsNumeral rest) :
    readNumeral (integerText k ++ rest) =
      some (⟨decide (k < 0), Nat.toDigits 10 k.natAbs, [], none⟩, rest) := by
  rw [readNumeral, readSign_integerText]
  simp only [readWhole_toDigits _ hrest.endsDigits, readFraction_of_endsNumeral hrest,
    readExponent_of_endsNumeral hrest, Option.bind_eq_bind, Option.bind_some, Option.pure_def]

/-- The numeral of an integer of sixty-four bits has that value. -/
theorem value?_integerText (n : Int64) :
    Numeral.value? ⟨decide (n.toInt < 0), Nat.toDigits 10 n.toInt.natAbs, [], none⟩ =
      some (.integer n) := by
  have hdigits : Numeral.digits ⟨decide (n.toInt < 0), Nat.toDigits 10 n.toInt.natAbs, [], none⟩ =
      n.toInt.natAbs := by
    rw [Numeral.digits, List.append_nil, Nat.ofDigitChars_ten_toDigits]
  have hvalue : (if decide (n.toInt < 0) = true then -(n.toInt.natAbs : Int) else n.toInt.natAbs) =
      n.toInt := by
    by_cases hneg : n.toInt < 0
    · rw [if_pos (decide_eq_true hneg)]
      omega
    · rw [if_neg (by simpa using hneg)]
      omega
  have hint : Numeral.integer? ⟨decide (n.toInt < 0), Nat.toDigits 10 n.toInt.natAbs, [], none⟩ =
      some n := by
    rw [Numeral.integer?, hdigits]
    rw [if_neg (by simp; omega)]
    simp only [hvalue]
    rw [if_pos ⟨n.minValue_le_toInt, n.toInt_le⟩, Int64.ofInt_toInt]
  rw [Numeral.value?, hint]

end Comprehension.Json
