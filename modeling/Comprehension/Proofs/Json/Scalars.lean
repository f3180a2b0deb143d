import Comprehension.Proofs.Json.DecimalNumeral

/-!
# What numbers and strings denote

The grammar says which texts are numbers and strings.  A number denotes the numeral of its sign, its
digits and its exponent, and a string denotes the text whose code units its characters and escapes
name.  The reader finds these texts at the start of what it reads, and what they denote.

## Main definitions

* `Json.DenotesNumeral`: numbers and their numerals.
* `Json.DenotesUnit`, `Json.DenotesString`: strings and their texts.

## Main results

* `Json.numberText_iff`: the numbers of the grammar are those that denote a numeral.
* `Json.exists_denotesNumeral`, `Json.DenotesNumeral.readNumeral_append`: the numerals that are read.
* `Json.readUnits_eq_some_iff`, `Json.readLiteral_eq_some_iff`: the strings that are read.
-/

namespace Comprehension.Json

/-! ### Numbers and their numerals -/

/-- What an exponent denotes.  An absent one denotes none. -/
inductive DenotesExponent : List Char → Option Int → Prop
  | absent : DenotesExponent [] none
  | positive {e : Char} {sign ds : List Char} :
      e = 'e' ∨ e = 'E' → sign = [] ∨ sign = ['+'] → Digits ds →
      DenotesExponent (e :: (sign ++ ds)) (some (Nat.ofDigitChars 10 ds 0 : Int))
  | negative {e : Char} {ds : List Char} :
      e = 'e' ∨ e = 'E' → Digits ds →
      DenotesExponent (e :: '-' :: ds) (some (-(Nat.ofDigitChars 10 ds 0 : Int)))

/-- What a number denotes. -/
inductive DenotesNumeral : List Char → Numeral → Prop
  | parts (negative : Bool) {whole fraction es : List Char} {exponent? : Option Int} :
      WholeText whole → (∀ c ∈ fraction, c.isDigit = true) → DenotesExponent es exponent? →
      DenotesNumeral (withMinus negative (joined whole fraction ++ es))
        ⟨negative, whole, fraction, exponent?⟩

theorem exponentText_iff {es : List Char} :
    ExponentText es ↔ ∃ exponent?, DenotesExponent es exponent? := by
  constructor
  · rintro (_ | ⟨he, rfl | rfl | rfl, hds⟩)
    · exact ⟨_, .absent⟩
    · exact ⟨_, .positive he (.inl rfl) hds⟩
    · exact ⟨_, .positive he (.inr rfl) hds⟩
    · exact ⟨_, .negative he hds⟩
  · rintro ⟨_, _ | ⟨he, hsign, hds⟩ | ⟨he, hds⟩⟩
    · exact .absent
    · exact .power he (hsign.imp_right .inl) hds
    · exact .power he (.inr (.inr rfl)) hds

theorem decimalText_iff {cs : List Char} :
    DecimalText cs ↔ ∃ whole fraction, WholeText whole ∧ (∀ c ∈ fraction, c.isDigit = true) ∧
      cs = joined whole fraction := by
  constructor
  · rintro (hwhole | ⟨hwhole, hfraction⟩)
    · exact ⟨_, [], hwhole, List.forall_mem_nil _, (if_pos rfl).symm⟩
    · exact ⟨_, _, hwhole, hfraction.2, (if_neg hfraction.1).symm⟩
  · rintro ⟨whole, fraction, hwhole, hfraction, rfl⟩
    by_cases hnil : fraction = []
    · rw [joined, if_pos hnil]
      exact .whole hwhole
    · rw [joined, if_neg hnil]
      exact .fraction hwhole ⟨hnil, hfraction⟩

/-- The numbers of the grammar are the texts that denote a numeral. -/
theorem numberText_iff {cs : List Char} : NumberText cs ↔ ∃ n, DenotesNumeral cs n := by
  constructor
  · intro h
    cases h with
    | unsigned hdecimal hexponent =>
      obtain ⟨whole, fraction, hwhole, hfraction, rfl⟩ := decimalText_iff.mp hdecimal
      obtain ⟨exponent?, hexponent⟩ := exponentText_iff.mp hexponent
      exact ⟨_, .parts false hwhole hfraction hexponent⟩
    | minus hdecimal hexponent =>
      obtain ⟨whole, fraction, hwhole, hfraction, rfl⟩ := decimalText_iff.mp hdecimal
      obtain ⟨exponent?, hexponent⟩ := exponentText_iff.mp hexponent
      exact ⟨_, .parts true hwhole hfraction hexponent⟩
  · rintro ⟨_, @⟨negative, whole, fraction, es, exponent?, hwhole, hfraction, hexponent⟩⟩
    have hdecimal := decimalText_iff.mpr ⟨whole, fraction, hwhole, hfraction, rfl⟩
    cases negative with
    | false => exact .unsigned hdecimal (exponentText_iff.mpr ⟨_, hexponent⟩)
    | true => exact .minus hdecimal (exponentText_iff.mpr ⟨_, hexponent⟩)

/-! ### Reading numerals -/

section Numerals

variable {cs ds rest : List Char}

/-- The digits that a text starts with. -/
theorem readDigits_eq_some_iff :
    readDigits cs = some (ds, rest) ↔ Digits ds ∧ EndsDigits rest ∧ cs = ds ++ rest := by
  constructor
  · intro h
    rw [readDigits] at h
    split at h
    · exact absurd h (by simp)
    · rename_i hne
      obtain ⟨rfl, rfl⟩ := Prod.mk.inj (Option.some.inj h)
      refine ⟨⟨fun hnil => hne (hnil ▸ rfl), fun c hc => List.mem_takeWhile_imp hc⟩, ?_,
        List.takeWhile_append_dropWhile.symm⟩
      intro c hc
      have hnot := List.head?_dropWhile_not Char.isDigit cs
      rw [Option.mem_def.mp hc] at hnot
      simpa using hnot
  · rintro ⟨hds, hrest, rfl⟩
    exact readDigits_append hds.1 hds.2 hrest

theorem wholeText_of_readWhole (h : readWhole cs = some (ds, rest)) :
    WholeText ds ∧ cs = ds ++ rest := by
  rw [readWhole.eq_def] at h
  split at h
  · obtain ⟨rfl, rfl⟩ := Prod.mk.inj (Option.some.inj h)
    exact ⟨wholeText_zero, rfl⟩
  · rename_i hzero
    obtain ⟨hds, -, rfl⟩ := readDigits_eq_some_iff.mp h
    refine ⟨⟨hds, fun hhead => ?_⟩, rfl⟩
    obtain ⟨ds, rfl⟩ := List.head?_eq_some_iff.mp hhead
    exact absurd rfl (hzero (ds ++ rest))

/-- The fraction that is read is joined to the digits in front of it. -/
theorem joined_of_readFraction {fraction : List Char}
    (h : readFraction cs = some (fraction, rest)) (whole : List Char) :
    (∀ c ∈ fraction, c.isDigit = true) ∧ whole ++ cs = joined whole fraction ++ rest := by
  rw [readFraction.eq_def] at h
  split at h
  · obtain ⟨hds, -, rfl⟩ := readDigits_eq_some_iff.mp h
    rw [joined, if_neg hds.1, List.append_assoc, List.cons_append]
    exact ⟨hds.2, rfl⟩
  · obtain ⟨rfl, rfl⟩ := Prod.mk.inj (Option.some.inj h)
    exact ⟨List.forall_mem_nil _, rfl⟩

theorem exists_denotesExponent_of_readSignedDigits {e : Char} (he : e = 'e' ∨ e = 'E') {k : Int}
    (h : readSignedDigits cs = some (k, rest)) :
    ∃ es, DenotesExponent es (some k) ∧ e :: cs = es ++ rest := by
  rw [readSignedDigits.eq_def] at h
  split at h
  · obtain ⟨⟨ds, _⟩, hread, heq⟩ := Option.map_eq_some_iff.mp h
    obtain ⟨rfl, rfl⟩ := Prod.mk.inj heq
    obtain ⟨hds, -, rfl⟩ := readDigits_eq_some_iff.mp hread
    exact ⟨_, .negative he hds, rfl⟩
  · obtain ⟨⟨ds, _⟩, hread, heq⟩ := Option.map_eq_some_iff.mp h
    obtain ⟨rfl, rfl⟩ := Prod.mk.inj heq
    obtain ⟨hds, -, rfl⟩ := readDigits_eq_some_iff.mp hread
    exact ⟨_, .positive he (.inr rfl) hds, rfl⟩
  · obtain ⟨⟨ds, _⟩, hread, heq⟩ := Option.map_eq_some_iff.mp h
    obtain ⟨rfl, rfl⟩ := Prod.mk.inj heq
    obtain ⟨hds, -, rfl⟩ := readDigits_eq_some_iff.mp hread
    exact ⟨_, .positive he (.inl rfl) hds, rfl⟩

theorem exists_denotesExponent {exponent? : Option Int}
    (h : readExponent cs = some (exponent?, rest)) :
    ∃ es, DenotesExponent es exponent? ∧ cs = es ++ rest := by
  rw [readExponent.eq_def] at h
  split at h
  · obtain ⟨⟨k, _⟩, hread, heq⟩ := Option.map_eq_some_iff.mp h
    obtain ⟨rfl, rfl⟩ := Prod.mk.inj heq
    exact exists_denotesExponent_of_readSignedDigits (.inl rfl) hread
  · obtain ⟨⟨k, _⟩, hread, heq⟩ := Option.map_eq_some_iff.mp h
    obtain ⟨rfl, rfl⟩ := Prod.mk.inj heq
    exact exists_denotesExponent_of_readSignedDigits (.inr rfl) hread
  · obtain ⟨rfl, rfl⟩ := Prod.mk.inj (Option.some.inj h)
    exact ⟨[], .absent, rfl⟩

theorem withMinus_append (negative : Bool) (cs ds : List Char) :
    withMinus negative cs ++ ds = withMinus negative (cs ++ ds) := by
  cases negative <;> rfl

theorem withMinus_readSign (cs : List Char) : withMinus (readSign cs).1 (readSign cs).2 = cs := by
  rw [readSign.eq_def]
  split <;> rfl

/-- A numeral that is read is denoted by the text in front of the rest. -/
theorem exists_denotesNumeral {n : Numeral} (h : readNumeral cs = some (n, rest)) :
    ∃ ds, DenotesNumeral ds n ∧ cs = ds ++ rest := by
  simp only [readNumeral, Option.bind_eq_bind, Option.bind_eq_some_iff, Option.pure_def,
    Option.some.injEq, Prod.mk.injEq, Prod.exists] at h
  obtain ⟨whole, cs₁, hreadWhole, fraction, cs₂, hreadFraction, _, _, hreadExponent, rfl, rfl⟩ := h
  obtain ⟨hwhole, hcs⟩ := wholeText_of_readWhole hreadWhole
  obtain ⟨hfraction, hjoined⟩ := joined_of_readFraction hreadFraction whole
  obtain ⟨es, hes, rfl⟩ := exists_denotesExponent hreadExponent
  refine ⟨_, .parts _ hwhole hfraction hes, ?_⟩
  rw [withMinus_append, List.append_assoc, ← hjoined, ← hcs, withMinus_readSign]

theorem DenotesExponent.readExponent_append {exponent? : Option Int}
    (h : DenotesExponent ds exponent?) (hrest : EndsNumeral rest) :
    readExponent (ds ++ rest) = some (exponent?, rest) := by
  have hread {ds : List Char} (hds : Digits ds) : readDigits (ds ++ rest) = some (ds, rest) :=
    readDigits_append hds.1 hds.2 hrest.endsDigits
  cases h with
  | absent => exact readExponent_of_endsNumeral hrest
  | @positive e sign ds he hsign hds =>
    have hsigned : readSignedDigits (sign ++ ds ++ rest) =
        some ((Nat.ofDigitChars 10 ds 0 : Int), rest) := by
      rcases hsign with rfl | rfl
      · obtain ⟨c, ds, rfl⟩ := List.exists_cons_of_ne_nil hds.1
        have hc := hds.2 c List.mem_cons_self
        rw [List.nil_append, readSignedDigits.eq_def]
        split
        · rename_i heq
          obtain ⟨rfl, -⟩ := List.cons.inj heq
          exact absurd hc (by decide)
        · rename_i heq
          obtain ⟨rfl, -⟩ := List.cons.inj heq
          exact absurd hc (by decide)
        · rw [hread hds, Option.map_some]
      · show (readDigits (ds ++ rest)).map _ = _
        rw [hread hds, Option.map_some]
    rcases he with rfl | rfl
    · rw [List.cons_append, readExponent, hsigned, Option.map_some]
    · rw [List.cons_append, readExponent, hsigned, Option.map_some]
  | @negative e ds he hds =>
    have hsigned : readSignedDigits ('-' :: ds ++ rest) =
        some (-(Nat.ofDigitChars 10 ds 0 : Int), rest) := by
      show (readDigits (ds ++ rest)).map _ = _
      rw [hread hds, Option.map_some]
    rcases he with rfl | rfl
    · rw [List.cons_append, readExponent, hsigned, Option.map_some]
    · rw [List.cons_append, readExponent, hsigned, Option.map_some]

/-- A text that denotes a numeral is read up to a text that does not continue it. -/
theorem DenotesNumeral.readNumeral_append {n : Numeral} (h : DenotesNumeral ds n)
    (hrest : EndsNumeral rest) : readNumeral (ds ++ rest) = some (n, rest) := by
  obtain @⟨negative, whole, fraction, es, exponent?, hwhole, hfraction, hes⟩ := h
  have hends : EndsFraction (es ++ rest) := by
    cases hes with
    | absent => exact fun c hc => ⟨(hrest c hc).1, (hrest c hc).2.1⟩
    | positive he =>
      rintro c ⟨⟩
      rcases he with rfl | rfl <;> decide
    | negative he =>
      rintro c ⟨⟩
      rcases he with rfl | rfl <;> decide
  have hread := readNumeral_joined negative hwhole hfraction hends (hes.readExponent_append hrest)
  rw [withMinus_append, List.append_assoc, hread]

theorem DenotesNumeral.exists_cons {n : Numeral} (h : DenotesNumeral cs n) :
    ∃ c ds, cs = c :: ds ∧ (c.isDigit = true ∨ c = '-') := by
  obtain @⟨negative, whole, fraction, es, _, hwhole, -, -⟩ := h
  obtain ⟨c, ds, rfl⟩ := List.exists_cons_of_ne_nil hwhole.1.1
  have hc := hwhole.1.2 c List.mem_cons_self
  cases negative with
  | true => exact ⟨'-', _, rfl, .inr rfl⟩
  | false =>
    rw [withMinus, if_neg Bool.false_ne_true, joined]
    split
    · exact ⟨c, _, rfl, .inl hc⟩
    · exact ⟨c, _, rfl, .inl hc⟩

end Numerals

/-! ### Strings and their texts -/

/-- The code unit that a character inside a string literal denotes. -/
inductive DenotesUnit : List Char → Nat → Prop
  | plain {c : Char} : c ≠ '"' → c ≠ '\\' → 0x20 ≤ c.toNat → DenotesUnit [c] c.toNat
  | escape {e c : Char} : escape? e = some c → DenotesUnit ['\\', e] c.toNat
  | code {a b c d : Char} {u : Nat} :
      hexQuad? a b c d = some u → DenotesUnit ['\\', 'u', a, b, c, d] u

/-- The text that a string literal denotes, if its code units are those of characters. -/
inductive DenotesString : List Char → String → Prop
  | quoted {parts : List (List Char)} {us : List Nat} {cs : List Char} :
      List.Forall₂ DenotesUnit parts us → joinUnits us = some cs →
      DenotesString ('"' :: parts.flatten ++ ['"']) (String.ofList cs)

theorem DenotesUnit.charText {part : List Char} {u : Nat} (h : DenotesUnit part u) :
    CharText part := by
  cases h with
  | plain hquote hslash hlow => exact .plain hquote hslash hlow
  | escape he => exact .escape (Option.isSome_of_eq_some he)
  | code hu => exact .code (Option.isSome_of_eq_some hu)

theorem DenotesString.exists_cons {cs : List Char} {s : String} (h : DenotesString cs s) :
    ∃ ds, cs = '"' :: ds := by
  cases h
  exact ⟨_, rfl⟩

theorem DenotesString.stringText {cs : List Char} {s : String} (h : DenotesString cs s) :
    StringText cs := by
  obtain ⟨hparts, -⟩ := h
  refine .quoted ?_
  induction hparts with
  | nil => exact List.forall_mem_nil _
  | cons hpart _ ih => exact List.forall_mem_cons.mpr ⟨hpart.charText, ih⟩

/-! ### Reading strings -/

section Strings

variable {cs rest : List Char}

/-- A character that denotes a code unit is read as that. -/
theorem DenotesUnit.readUnits_append {part : List Char} {u : Nat} (h : DenotesUnit part u)
    (cs : List Char) : readUnits (part ++ cs) = (readUnits cs).map fun p => (u :: p.1, p.2) := by
  cases h with
  | plain hquote hslash hlow => exact readUnits_plain hquote hslash hlow cs
  | @escape e c he =>
    have hu : e ≠ 'u' := by
      rintro rfl
      simp [escape?] at he
    exact readUnits_escape hu he cs
  | code hu => exact readUnits_quad hu cs

/-- The characters that are read are those in front of the first quote that is none of them. -/
theorem readUnits_eq_some_iff {us : List Nat} :
    readUnits cs = some (us, rest) ↔
      ∃ parts, List.Forall₂ DenotesUnit parts us ∧ cs = parts.flatten ++ '"' :: rest := by
  constructor
  · intro h
    fun_induction readUnits cs generalizing us with
    | case1 => exact absurd h (by simp)
    | case2 cs =>
      obtain ⟨rfl, rfl⟩ := Prod.mk.inj (Option.some.inj h)
      exact ⟨[], .nil, rfl⟩
    | case3 a b c d cs ih =>
      simp only [Option.bind_eq_bind, Option.bind_eq_some_iff, Option.pure_def, Option.some.injEq,
        Prod.mk.injEq, Prod.exists] at h
      obtain ⟨u, hu, us, _, hread, rfl, rfl⟩ := h
      obtain ⟨parts, hparts, rfl⟩ := ih hread
      exact ⟨_ :: parts, .cons (.code hu) hparts, rfl⟩
    | case4 e cs _ ih =>
      simp only [Option.bind_eq_bind, Option.bind_eq_some_iff, Option.pure_def, Option.some.injEq,
        Prod.mk.injEq, Prod.exists] at h
      obtain ⟨c, hc, us, _, hread, rfl, rfl⟩ := h
      obtain ⟨parts, hparts, rfl⟩ := ih hread
      exact ⟨_ :: parts, .cons (.escape hc) hparts, rfl⟩
    | case5 => exact absurd h (by simp)
    | case6 c cs hquote _ _ hplain ih =>
      simp only [Option.bind_eq_bind, Option.bind_eq_some_iff, Option.pure_def, Option.some.injEq,
        Prod.mk.injEq, Prod.exists] at h
      obtain ⟨us, _, hread, rfl, rfl⟩ := h
      obtain ⟨parts, hparts, rfl⟩ := ih hread
      rw [not_or, Nat.not_lt] at hplain
      exact ⟨_ :: parts, .cons (.plain hquote hplain.1 hplain.2) hparts, rfl⟩
  · rintro ⟨parts, hparts, rfl⟩
    induction hparts with
    | nil => rw [List.flatten_nil, List.nil_append, readUnits]
    | cons hpart _ ih =>
      rw [List.flatten_cons, List.append_assoc, hpart.readUnits_append, ih]
      rfl

/-- The literal that is read behind its opening quote denotes the text. -/
theorem readLiteral_eq_some_iff {s : String} :
    readLiteral cs = some (s, rest) ↔ ∃ ds, DenotesString ('"' :: ds) s ∧ cs = ds ++ rest := by
  constructor
  · intro h
    simp only [readLiteral, Option.bind_eq_bind, Option.bind_eq_some_iff, Option.pure_def,
      Option.some.injEq, Prod.mk.injEq, Prod.exists] at h
    obtain ⟨us, _, hunits, text, htext, rfl, rfl⟩ := h
    obtain ⟨parts, hparts, rfl⟩ := readUnits_eq_some_iff.mp hunits
    refine ⟨parts.flatten ++ ['"'], .quoted hparts htext, ?_⟩
    rw [List.append_assoc, List.singleton_append]
  · rintro ⟨ds, h, rfl⟩
    generalize hquoted : '"' :: ds = quoted at h
    obtain @⟨parts, us, text, hparts, htext⟩ := h
    rw [List.cons_append, List.cons.injEq] at hquoted
    obtain rfl := hquoted.2
    have hunits : readUnits (parts.flatten ++ '"' :: rest) = some (us, rest) :=
      readUnits_eq_some_iff.mpr ⟨parts, hparts, rfl⟩
    rw [List.append_assoc, List.singleton_append, readLiteral, hunits]
    simp [htext]

end Strings

end Comprehension.Json
