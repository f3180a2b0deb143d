import Comprehension.Json.Literal
import Mathlib.Tactic.SplitIfs

/-!
# String literals are read back

A text that is written as a literal is read back from it, whatever its characters are and whatever
follows the literal.  The escapes of control characters are read as the code units they name, and
since no character is a surrogate the code units of a text are not joined.

## Main results

* `Json.escaped_cases`: the three ways in which a character is written.
* `Json.readUnits_escaped`: one character is read back.
* `Json.readLiteral_escaped`: a whole text is read back.
-/

namespace Comprehension.Json

/-! ### One character -/

theorem hexDigit?_digitChar : ∀ d < 16, hexDigit? d.digitChar = some d := by
  decide

/-- The four digits of a control character name its code point. -/
theorem hexQuad?_hexQuad {n : Nat} (hn : n < 0xA0) :
    ∃ a b c d, hexQuad n = [a, b, c, d] ∧ hexQuad? a b c d = some n := by
  have hquad : ∀ n < 0xA0,
      hexQuad n = ['0', '0', (n / 16).digitChar, (n % 16).digitChar] := by
    decide +kernel
  have hzero : hexDigit? '0' = some 0 := rfl
  have hhigh := hexDigit?_digitChar (n / 16) (by omega)
  have hlow := hexDigit?_digitChar (n % 16) (by omega)
  refine ⟨_, _, _, _, hquad n hn, ?_⟩
  simp only [hexQuad?, hzero, hhigh, hlow, Option.bind_eq_bind, Option.bind_some, Option.pure_def,
    Option.some.injEq]
  omega

theorem le_toNat_of_isControl_eq_false {c : Char} (h : Text.isControl c = false) :
    0x20 ≤ c.toNat := by
  simp only [Text.isControl, Bool.or_eq_false_iff, decide_eq_false_iff_not] at h
  omega

theorem toNat_lt_of_isControl {c : Char} (h : Text.isControl c = true) : c.toNat < 0xA0 := by
  simp only [Text.isControl, Bool.or_eq_true, Bool.and_eq_true, decide_eq_true_eq] at h
  omega

/-- A character is written as an escape of two characters, as an escape of its code point, or as
itself. -/
theorem escaped_cases (c : Char) :
    (∃ e, escaped c = ['\\', e] ∧ e ≠ 'u' ∧ escape? e = some c) ∨
    (∃ a b d e, escaped c = ['\\', 'u', a, b, d, e] ∧ hexQuad? a b d e = some c.toNat) ∨
    (escaped c = [c] ∧ c ≠ '"' ∧ c ≠ '\\' ∧ Text.isControl c = false) := by
  rw [escaped]
  split_ifs with hquote hslash hline hreturn htab hcontrol
  · exact .inl ⟨_, rfl, by decide, by rw [hquote]; rfl⟩
  · exact .inl ⟨_, rfl, by decide, by rw [hslash]; rfl⟩
  · exact .inl ⟨_, rfl, by decide, by rw [hline]; rfl⟩
  · exact .inl ⟨_, rfl, by decide, by rw [hreturn]; rfl⟩
  · exact .inl ⟨_, rfl, by decide, by rw [htab]; rfl⟩
  · obtain ⟨a, b, d, e, hds, hn⟩ := hexQuad?_hexQuad (toNat_lt_of_isControl hcontrol)
    exact .inr (.inl ⟨a, b, d, e, by rw [hds], hn⟩)
  · exact .inr (.inr ⟨rfl, hquote, hslash, Bool.eq_false_iff.mpr hcontrol⟩)

theorem readUnits_escape {c e : Char} (hu : e ≠ 'u') (he : escape? e = some c) (cs : List Char) :
    readUnits ('\\' :: e :: cs) = (readUnits cs).map fun p => (c.toNat :: p.1, p.2) := by
  rw [readUnits]
  · rw [he]
    cases readUnits cs <;> rfl
  · rintro a b c d rest heq
    exact absurd heq hu

theorem readUnits_quad {a b c d : Char} {n : Nat} (hn : hexQuad? a b c d = some n)
    (cs : List Char) :
    readUnits ('\\' :: 'u' :: a :: b :: c :: d :: cs) =
      (readUnits cs).map fun p => (n :: p.1, p.2) := by
  rw [readUnits, hn]
  cases readUnits cs <;> rfl

theorem readUnits_plain {c : Char} (hquote : c ≠ '"') (hslash : c ≠ '\\') (hlow : 0x20 ≤ c.toNat)
    (cs : List Char) :
    readUnits (c :: cs) = (readUnits cs).map fun p => (c.toNat :: p.1, p.2) := by
  rw [readUnits]
  · rw [if_neg (not_or.mpr ⟨hslash, Nat.not_lt.mpr hlow⟩)]
    cases readUnits cs <;> rfl
  · exact hquote
  all_goals
    intros
    contradiction

/-- A written character is read as its code point. -/
theorem readUnits_escaped (c : Char) (cs : List Char) :
    readUnits (escaped c ++ cs) = (readUnits cs).map fun p => (c.toNat :: p.1, p.2) := by
  rcases escaped_cases c with ⟨e, hc, hu, he⟩ | ⟨a, b, d, e, hc, hn⟩ | ⟨hc, hquote, hslash, hplain⟩
  · rw [hc]
    exact readUnits_escape hu he cs
  · rw [hc]
    exact readUnits_quad hn cs
  · rw [hc]
    exact readUnits_plain hquote hslash (le_toNat_of_isControl_eq_false hplain) cs

/-! ### A text -/

theorem readUnits_flatMap_escaped (s rest : List Char) :
    readUnits (s.flatMap escaped ++ '"' :: rest) = some (s.map Char.toNat, rest) := by
  induction s with
  | nil => rw [List.flatMap_nil, List.nil_append, readUnits, List.map_nil]
  | cons c s ih =>
    rw [List.flatMap_cons, List.append_assoc, readUnits_escaped, ih]
    rfl

/-- The code points of characters are code units that stand alone. -/
theorem joinUnits_map_toNat (s : List Char) : joinUnits (s.map Char.toNat) = some s := by
  induction s with
  | nil => rfl
  | cons c s ih =>
    have hvalid : c.toNat < 0xD800 ∨ (0xDFFF < c.toNat ∧ c.toNat < 0x110000) := c.valid
    have hhigh : ¬ (0xD800 ≤ c.toNat ∧ c.toNat < 0xDC00) := by omega
    have hlow : ¬ (0xDC00 ≤ c.toNat ∧ c.toNat < 0xE000) := by omega
    rw [List.map_cons, joinUnits.eq_def]
    simp only [if_neg hhigh, if_neg hlow, ih, Option.map_some, Char.ofNat_toNat]

/-- A text is read back from its literal. -/
theorem readLiteral_escaped (s : String) (rest : List Char) :
    readLiteral (s.toList.flatMap escaped ++ '"' :: rest) = some (s, rest) := by
  rw [readLiteral, readUnits_flatMap_escaped]
  simp [joinUnits_map_toNat]

end Comprehension.Json
