import Comprehension.Proofs.Double.Shortest
import Comprehension.Proofs.Json.Lexing

/-!
# Written values are JSON

The grammar of JSON texts, with no bound on the depth of a value or the size of a number.  It shares
the white space and the escapes with the reader, and nothing with the printer.  What is written has
this grammar: integers and finite doubles are numbers, texts are string literals, and brackets hold
parts that are separated by commas, with white space around them or not.

## Main definitions

* `Json.NumberText`, `Json.StringText`, `Json.ValueText`: the texts of numbers, strings and values.
* `Json.IsJson`: one value with white space around it.

## Main results

* `Json.decimalText_positional`: a decimal without an exponent, unless it is zero followed by zeros.
* `Json.separated_bracketed`: what stands between the brackets of an array or object.
* `Json.valueText_written`: every written value is the text of a value.
* `Json.isJson_text`, `Json.isJson_mappingText`: written values and mappings are JSON.
-/

namespace Comprehension.Json

/-! ### The grammar -/

/-- White space between tokens. -/
def Spaces (w : List Char) : Prop := ∀ c ∈ w, isSpace c = true

/-- One or more digits. -/
def Digits (ds : List Char) : Prop := ds ≠ [] ∧ ∀ c ∈ ds, c.isDigit = true

/-- The digits of a number before its point: a zero starts them only when it stands alone. -/
def WholeText (ds : List Char) : Prop := Digits ds ∧ (ds.head? = some '0' → ds = ['0'])

/-- A number without a sign and an exponent. -/
inductive DecimalText : List Char → Prop
  | whole {ds : List Char} : WholeText ds → DecimalText ds
  | fraction {ds fs : List Char} : WholeText ds → Digits fs → DecimalText (ds ++ '.' :: fs)

/-- The exponent of a number, which may be absent. -/
inductive ExponentText : List Char → Prop
  | absent : ExponentText []
  | power {e : Char} {sign ds : List Char} :
      e = 'e' ∨ e = 'E' → sign = [] ∨ sign = ['+'] ∨ sign = ['-'] → Digits ds →
      ExponentText (e :: (sign ++ ds))

/-- A number. -/
inductive NumberText : List Char → Prop
  | unsigned {cs es : List Char} : DecimalText cs → ExponentText es → NumberText (cs ++ es)
  | minus {cs es : List Char} : DecimalText cs → ExponentText es → NumberText ('-' :: (cs ++ es))

/-- One character inside a string literal: itself, which no control character below the space may
be, or an escape. -/
inductive CharText : List Char → Prop
  | plain {c : Char} : c ≠ '"' → c ≠ '\\' → 0x20 ≤ c.toNat → CharText [c]
  | escape {e : Char} : (escape? e).isSome = true → CharText ['\\', e]
  | code {a b c d : Char} : (hexQuad? a b c d).isSome = true → CharText ['\\', 'u', a, b, c, d]

/-- A string literal. -/
inductive StringText : List Char → Prop
  | quoted {parts : List (List Char)} :
      (∀ part ∈ parts, CharText part) → StringText ('"' :: parts.flatten ++ ['"'])

section Parts

variable (P : List Char → Prop)

/-- One or more parts with white space around each of them and commas between them. -/
inductive Separated : List Char → Prop
  | last {w part w' : List Char} : Spaces w → P part → Spaces w' → Separated (w ++ (part ++ w'))
  | comma {w part w' cs : List Char} :
      Spaces w → P part → Spaces w' → Separated cs → Separated (w ++ (part ++ (w' ++ ',' :: cs)))

/-- A name and a value with a colon between them. -/
inductive MemberText : List Char → Prop
  | colon {name w w' value : List Char} :
      StringText name → Spaces w → Spaces w' → P value →
      MemberText (name ++ (w ++ ':' :: (w' ++ value)))

end Parts

/-- A value. -/
inductive ValueText : List Char → Prop
  | null : ValueText "null".toList
  | boolean (b : Bool) : ValueText (if b then "true".toList else "false".toList)
  | number {cs : List Char} : NumberText cs → ValueText cs
  | string {cs : List Char} : StringText cs → ValueText cs
  | emptyArray {w : List Char} : Spaces w → ValueText ('[' :: w ++ [']'])
  | array {cs : List Char} : Separated ValueText cs → ValueText ('[' :: cs ++ [']'])
  | emptyObject {w : List Char} : Spaces w → ValueText ('{' :: w ++ ['}'])
  | object {cs : List Char} :
      Separated (MemberText ValueText) cs → ValueText ('{' :: cs ++ ['}'])

/-- One JSON text: a value with white space around it. -/
inductive IsJson : String → Prop
  | value {w cs w' : List Char} :
      Spaces w → ValueText cs → Spaces w' → IsJson (String.ofList (w ++ (cs ++ w')))

theorem spaces_nil : Spaces [] := List.forall_mem_nil _

theorem IsJson.of_valueText {cs : List Char} (h : ValueText cs) : IsJson (String.ofList cs) := by
  have hjson := IsJson.value spaces_nil h spaces_nil
  rwa [List.nil_append, List.append_nil] at hjson

/-! ### Numbers -/

theorem Digits.append {ds es : List Char} (h : Digits ds) (h' : ∀ c ∈ es, c.isDigit = true) :
    Digits (ds ++ es) := by
  refine ⟨List.append_ne_nil_of_left_ne_nil h.1 es, fun c hc => ?_⟩
  rcases List.mem_append.mp hc with hc | hc
  · exact h.2 c hc
  · exact h' c hc

theorem isDigit_of_mem_zeros {k : Nat} {c : Char} (h : c ∈ List.replicate k '0') :
    c.isDigit = true := by
  rw [List.eq_of_mem_replicate h]
  rfl

theorem digits_toDigits (n : Nat) : Digits (Nat.toDigits 10 n) :=
  ⟨Nat.toDigits_ne_nil, fun _ => isDigit_of_mem_toDigits⟩

theorem wholeText_zero : WholeText ['0'] :=
  ⟨⟨List.cons_ne_nil _ _, List.forall_mem_singleton.mpr rfl⟩, fun _ => rfl⟩

/-- The digits of a positive number, whatever digits follow them. -/
theorem wholeText_toDigits_append {n : Nat} (hn : 0 < n) {es : List Char}
    (hes : ∀ c ∈ es, c.isDigit = true) : WholeText (Nat.toDigits 10 n ++ es) := by
  refine ⟨(digits_toDigits n).append hes, fun hzero => ?_⟩
  rw [List.head?_append_of_ne_nil _ Nat.toDigits_ne_nil] at hzero
  exact absurd hzero (head?_toDigits_ne_zero hn)

theorem wholeText_toDigits (n : Nat) : WholeText (Nat.toDigits 10 n) := by
  rcases Nat.eq_zero_or_pos n with rfl | hn
  · rw [Nat.toDigits_zero]
    exact wholeText_zero
  · have h := wholeText_toDigits_append hn (List.forall_mem_nil _)
    rwa [List.append_nil] at h

/-- The first digits of a number that has more of them. -/
theorem wholeText_take_toDigits {n k : Nat} (hk : 0 < k) (hlt : k < (Nat.toDigits 10 n).length) :
    WholeText ((Nat.toDigits 10 n).take k) := by
  have hne : (Nat.toDigits 10 n).take k ≠ [] := by
    rw [← List.length_pos_iff, List.length_take]
    exact Nat.lt_min.mpr ⟨hk, hk.trans hlt⟩
  -- A number of two digits or more is positive, so its first digit is no zero.
  have hn : 0 < n := by
    refine Nat.pos_of_ne_zero fun hzero => ?_
    rw [hzero, Nat.toDigits_zero, List.length_singleton] at hlt
    omega
  refine ⟨⟨hne, fun c hc => isDigit_of_mem_toDigits (List.mem_of_mem_take hc)⟩, fun hzero => ?_⟩
  rw [List.head?_take, if_neg (Nat.ne_of_gt hk)] at hzero
  exact absurd hzero (head?_toDigits_ne_zero hn)

theorem Digits.drop {ds : List Char} (h : Digits ds) {k : Nat} (hk : k < ds.length) :
    Digits (ds.drop k) := by
  refine ⟨?_, fun c hc => h.2 c (List.mem_of_mem_drop hc)⟩
  rw [← List.length_pos_iff, List.length_drop]
  exact Nat.sub_pos_of_lt hk

/-- Digits without a leading zero that are cut by a point. -/
theorem decimalText_pointed (n : Nat) {places : Nat} (hplaces : 0 < places) :
    DecimalText (Decimal.pointed (Nat.toDigits 10 n) places) := by
  have hdigits := digits_toDigits n
  rw [Decimal.pointed, if_neg (Nat.ne_of_gt hplaces)]
  split
  · exact .fraction (wholeText_take_toDigits (by omega) (by omega)) (hdigits.drop (by omega))
  · refine DecimalText.fraction wholeText_zero ⟨?_, fun c hc => ?_⟩
    · exact List.append_ne_nil_of_right_ne_nil _ hdigits.1
    · rcases List.mem_append.mp hc with hc | hc
      · exact isDigit_of_mem_zeros hc
      · exact hdigits.2 c hc

/-- A decimal without an exponent, unless it is zero followed by zeros. -/
theorem decimalText_positional {d : Decimal} (h : d.digits ≠ 0 ∨ d.exponent ≤ 0) :
    DecimalText d.positional := by
  obtain ⟨n, exponent⟩ := d
  cases exponent with
  | ofNat k =>
    have hzeros : ∀ c ∈ List.replicate k '0', c.isDigit = true := fun c => isDigit_of_mem_zeros
    show DecimalText (Nat.toDigits 10 n ++ List.replicate k '0')
    rcases Nat.eq_zero_or_pos n with rfl | hn
    · obtain rfl : k = 0 := by
        have hk : (k : Int) ≤ 0 := h.resolve_left fun hne => hne rfl
        omega
      rw [List.replicate_zero, List.append_nil]
      exact .whole (wholeText_toDigits 0)
    · exact .whole (wholeText_toDigits_append hn hzeros)
  | negSucc k => exact decimalText_pointed n k.succ_pos

theorem numberText_of_decimalText {cs : List Char} (h : DecimalText cs) : NumberText cs := by
  have hnumber := NumberText.unsigned h .absent
  rwa [List.append_nil] at hnumber

theorem numberText_minus {cs : List Char} (h : DecimalText cs) : NumberText ('-' :: cs) := by
  have hnumber := NumberText.minus h .absent
  rwa [List.append_nil] at hnumber

theorem numberText_integerText (k : Int) : NumberText (integerText k) := by
  cases k with
  | ofNat n => exact numberText_of_decimalText (.whole (wholeText_toDigits n))
  | negSucc n => exact numberText_minus (.whole (wholeText_toDigits (n + 1)))

theorem numberText_plainText (x : Double) : NumberText x.plainText := by
  have hdecimal := decimalText_positional (Double.digits_shortest_ne_zero x.magnitude)
  rw [Double.plainText, Double.signed, Double.decimal]
  split
  · exact numberText_minus hdecimal
  · exact numberText_of_decimalText hdecimal

/-! ### Strings -/

theorem charText_escaped (c : Char) : CharText (escaped c) := by
  rcases escaped_cases c with ⟨e, hc, -, he⟩ | ⟨a, b, d, e, hc, hn⟩ | ⟨hc, hquote, hslash, hplain⟩
  · rw [hc]
    exact .escape (Option.isSome_of_eq_some he)
  · rw [hc]
    exact .code (Option.isSome_of_eq_some hn)
  · rw [hc]
    exact .plain hquote hslash (le_toNat_of_isControl_eq_false hplain)

theorem stringText_literal (s : String) : StringText (literal s) := by
  have hparts : ∀ part ∈ s.toList.map escaped, CharText part := by
    intro part hpart
    obtain ⟨c, -, rfl⟩ := List.mem_map.mp hpart
    exact charText_escaped c
  exact .quoted hparts

/-! ### Brackets -/

/-- Parts that are joined by commas with white space behind them. -/
theorem separated_intercalate {P : List Char → Prop} {space finish : List Char}
    (hspace : Spaces space) (hfinish : Spaces finish) {parts : List (List Char)}
    (hne : parts ≠ []) (hparts : ∀ part ∈ parts, P part) :
    Separated P (space ++ ((',' :: space).intercalate parts ++ finish)) := by
  induction parts with
  | nil => exact absurd rfl hne
  | cons part parts ih =>
    obtain ⟨hpart, hrest⟩ := List.forall_mem_cons.mp hparts
    cases parts with
    | nil =>
      rw [List.intercalate_singleton]
      exact .last hspace hpart hfinish
    | cons part' parts =>
      have h := Separated.comma hspace hpart spaces_nil (ih (List.cons_ne_nil _ _) hrest)
      rw [List.intercalate_cons_cons]
      simpa only [List.append_assoc, List.cons_append, List.nil_append] using h

/-- Between brackets there is nothing, or parts separated by commas. -/
theorem separated_bracketed {P : List Char → Prop} (layout : Layout) (depth : Nat)
    (opening closing : Char) {parts : List (List Char)} (hparts : ∀ part ∈ parts, P part) :
    layout.bracketed depth opening closing parts = opening :: [] ++ [closing] ∨
      ∃ cs, Separated P cs ∧
        layout.bracketed depth opening closing parts = opening :: cs ++ [closing] := by
  rw [Layout.bracketed]
  cases parts with
  | nil => exact .inl rfl
  | cons part parts =>
    refine .inr ⟨_, separated_intercalate (isSpace_of_mem_line layout (depth + 1))
      (isSpace_of_mem_line layout depth) (List.cons_ne_nil part parts) hparts, ?_⟩
    simp only [List.isEmpty_cons, Bool.false_eq_true, if_false, List.append_assoc, List.cons_append]

/-! ### Values -/

theorem valueText_array (layout : Layout) (depth : Nat) {parts : List (List Char)}
    (hparts : ∀ part ∈ parts, ValueText part) :
    ValueText (layout.bracketed depth '[' ']' parts) := by
  rcases separated_bracketed layout depth '[' ']' hparts with h | ⟨cs, hcs, h⟩
  · rw [h]
    exact .emptyArray spaces_nil
  · rw [h]
    exact .array hcs

theorem memberText_literal (layout : Layout) (name : String) {cs : List Char} (h : ValueText cs) :
    MemberText ValueText (literal name ++ layout.colon ++ cs) := by
  have hspace : Spaces [' '] := List.forall_mem_singleton.mpr rfl
  rw [List.append_assoc]
  cases layout with
  | compact => exact .colon (stringText_literal name) spaces_nil spaces_nil h
  | pretty => exact .colon (stringText_literal name) spaces_nil hspace h

theorem valueText_object (layout : Layout) (depth : Nat) {members : List (String × List Char)}
    (hmembers : ∀ m ∈ members, ValueText m.2) :
    ValueText (layout.writtenObject depth members) := by
  have hparts : ∀ part ∈ members.map fun m => literal m.1 ++ layout.colon ++ m.2,
      MemberText ValueText part := by
    intro part hpart
    obtain ⟨m, hm, rfl⟩ := List.mem_map.mp hpart
    exact memberText_literal layout m.1 (hmembers m hm)
  rw [Layout.writtenObject]
  rcases separated_bracketed layout depth '{' '}' hparts with h | ⟨cs, hcs, h⟩
  · rw [h]
    exact .emptyObject spaces_nil
  · rw [h]
    exact .object hcs

/-- Every written value is the text of a value. -/
theorem valueText_written (layout : Layout) (depth : Nat) (v : Value) :
    ValueText (layout.written depth v) := by
  induction v using Value.induction generalizing depth with
  | undefined => exact .null
  | null => exact .null
  | boolean b => exact .boolean b
  | float x =>
    rw [Layout.written]
    split
    · exact .number (numberText_plainText x)
    · exact .null
  | integer n => exact .number (numberText_integerText n.toInt)
  | string s => exact .string (stringText_literal s)
  | array items ih =>
    rw [Layout.written_array]
    refine valueText_array layout depth fun part hpart => ?_
    obtain ⟨v, hv, rfl⟩ := List.mem_map.mp hpart
    exact ih v hv (depth + 1)
  | object members ih =>
    rw [Layout.written_object, Mapping.entries_map]
    refine valueText_object layout depth fun part hpart => ?_
    obtain ⟨m, hm, rfl⟩ := List.mem_map.mp hpart
    have hmem := (Value.mem_definedMembers.mp (Mapping.mem_of_mem_ofList hm)).1
    exact ih m hmem (depth + 1)

/-- A written value is JSON. -/
theorem isJson_text (layout : Layout) (v : Value) : IsJson (layout.text v) :=
  .of_valueText (valueText_written layout 0 v)

/-- A written mapping is JSON. -/
theorem isJson_mappingText (layout : Layout) (m : Mapping Value) :
    IsJson (layout.mappingText m) := by
  rw [Layout.mappingText_eq_text]
  exact isJson_text layout (.ofMapping m)

/-- A written mapping starts with a brace. -/
theorem head?_mappingText (layout : Layout) (m : Mapping Value) :
    (layout.mappingText m).toList.head? = some '{' := by
  rw [Layout.mappingText, Layout.writtenObject, Layout.bracketed]
  split
  · rw [String.toList_ofList, List.head?_cons]
  · simp only [String.toList_ofList, List.cons_append, List.head?_cons]

end Comprehension.Json
