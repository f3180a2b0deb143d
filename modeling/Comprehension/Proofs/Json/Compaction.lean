import Comprehension.Proofs.Json.Grammar

/-!
# Deleting white space between tokens

A scanner goes through a JSON text and knows at each character whether it stands in a string
literal.  The text without the spaces and newlines that stand in none is its compacted text.  String
literals and numbers are kept as they are, and the lines between brackets vanish, so every layout of
a value is compacted to the layout without white space.

## Main definitions

* `Json.Place`, `Json.Place.run`: where the scanner stands in a text.
* `Json.compacted`: a text without the spaces and newlines outside string literals.
* `Json.Compacts`: a text between two places and its compacted text.

## Main results

* `Json.compacts_stringText`, `Json.compacts_numberText`: what is kept.
* `Json.compacts_bracketed`: brackets around parts.
* `Json.compacts_written`: every layout of a value.
* `Json.compacted_text_eq`: the indented text of a value or mapping without its white space.
-/

namespace Comprehension.Json

/-! ### Scanning a text -/

/-- Where a scanner stands: outside the string literals, inside one, or behind a backslash in
one. -/
inductive Place
  | outside
  | inside
  | escape
  deriving DecidableEq

/-- The place behind a character. -/
def Place.step : Place → Char → Place
  | outside, c => if c = '"' then inside else outside
  | inside, c => if c = '"' then outside else if c = '\\' then escape else inside
  | escape, _ => inside

/-- The place behind a text. -/
def Place.run (p : Place) (cs : List Char) : Place := cs.foldl Place.step p

/-- A text that starts at a place, without the spaces and newlines outside string literals. -/
def compacted : Place → List Char → List Char
  | _, [] => []
  | p, c :: cs =>
    if p = .outside ∧ (c = ' ' ∨ c = '\n') then compacted (p.step c) cs
    else c :: compacted (p.step c) cs

theorem Place.run_append (p : Place) (cs ds : List Char) :
    p.run (cs ++ ds) = (p.run cs).run ds :=
  List.foldl_append

theorem compacted_append (p : Place) (cs ds : List Char) :
    compacted p (cs ++ ds) = compacted p cs ++ compacted (p.run cs) ds := by
  induction cs generalizing p with
  | nil => rfl
  | cons c cs ih =>
    have hrun : p.run (c :: cs) = (p.step c).run cs := rfl
    rw [List.cons_append, compacted, compacted, ih, hrun]
    split
    · rfl
    · rw [List.cons_append]

/-- A text leads from one place to another, and is compacted to a text on the way. -/
structure Compacts (p : Place) (cs : List Char) (q : Place) (ds : List Char) : Prop where
  place : p.run cs = q
  text : compacted p cs = ds

namespace Compacts

variable {p q r : Place} {cs cs' ds ds' : List Char}

theorem nil : Compacts p [] p [] := ⟨rfl, rfl⟩

/-- Texts one after the other are compacted one after the other. -/
theorem append (h : Compacts p cs q ds) (h' : Compacts q cs' r ds') :
    Compacts p (cs ++ cs') r (ds ++ ds') := by
  obtain ⟨rfl, rfl⟩ := h
  obtain ⟨rfl, rfl⟩ := h'
  exact ⟨p.run_append cs cs', compacted_append p cs cs'⟩

/-- A character that is kept. -/
theorem keep {c : Char} (hc : p = .outside → c ≠ ' ' ∧ c ≠ '\n')
    (h : Compacts (p.step c) cs q ds) : Compacts p (c :: cs) q (c :: ds) := by
  obtain ⟨rfl, rfl⟩ := h
  refine ⟨rfl, ?_⟩
  rw [compacted, if_neg]
  rintro ⟨hp, hspace⟩
  exact hspace.elim (hc hp).1 (hc hp).2

end Compacts

/-! ### What vanishes and what is kept -/

/-- Spaces and newlines outside string literals vanish. -/
theorem compacts_spaces {w : List Char} (h : ∀ c ∈ w, c = ' ' ∨ c = '\n') :
    Compacts .outside w .outside [] := by
  induction w with
  | nil => exact .nil
  | cons c w ih =>
    obtain ⟨hc, hw⟩ := List.forall_mem_cons.mp h
    have hstep : Place.outside.step c = .outside := by rcases hc with rfl | rfl <;> rfl
    obtain ⟨hrun, htext⟩ := ih hw
    refine ⟨?_, ?_⟩
    · rw [Place.run, List.foldl_cons, hstep]
      exact hrun
    · rw [compacted, if_pos ⟨rfl, hc⟩, hstep, htext]

/-- A text without quotes, spaces and newlines is kept. -/
theorem compacts_plain {cs : List Char} (h : ∀ c ∈ cs, c ≠ '"' ∧ c ≠ ' ' ∧ c ≠ '\n') :
    Compacts .outside cs .outside cs := by
  induction cs with
  | nil => exact .nil
  | cons c cs ih =>
    obtain ⟨⟨hquote, hspace⟩, hcs⟩ := List.forall_mem_cons.mp h
    have hstep : Place.outside.step c = .outside := if_neg hquote
    refine .keep (fun _ => hspace) ?_
    rw [hstep]
    exact ih hcs

/-- The characters of numbers: digits, signs, a point and the marks of an exponent. -/
def NumberChar (c : Char) : Prop := c.isDigit = true ∨ c ∈ ['-', '+', '.', 'e', 'E']

instance (c : Char) : Decidable (NumberChar c) :=
  inferInstanceAs (Decidable (c.isDigit = true ∨ c ∈ ['-', '+', '.', 'e', 'E']))

theorem DecimalText.numberChar {cs : List Char} (h : DecimalText cs) : ∀ c ∈ cs, NumberChar c := by
  intro c hc
  cases h with
  | whole hwhole => exact .inl (hwhole.1.2 c hc)
  | fraction hwhole hfraction =>
    rcases List.mem_append.mp hc with hc | hc
    · exact .inl (hwhole.1.2 c hc)
    · rcases List.mem_cons.mp hc with rfl | hc
      · exact .inr (by decide)
      · exact .inl (hfraction.2 c hc)

theorem ExponentText.numberChar {cs : List Char} (h : ExponentText cs) :
    ∀ c ∈ cs, NumberChar c := by
  intro c hc
  cases h with
  | absent => exact absurd hc List.not_mem_nil
  | power he hsign hdigits =>
    rcases List.mem_cons.mp hc with rfl | hc
    · rcases he with rfl | rfl <;> exact .inr (by decide)
    · rcases List.mem_append.mp hc with hc | hc
      · rcases hsign with rfl | rfl | rfl
        · exact absurd hc List.not_mem_nil
        · rw [List.mem_singleton.mp hc]
          exact .inr (by decide)
        · rw [List.mem_singleton.mp hc]
          exact .inr (by decide)
      · exact .inl (hdigits.2 c hc)

theorem NumberText.numberChar {cs : List Char} (h : NumberText cs) : ∀ c ∈ cs, NumberChar c := by
  cases h with
  | unsigned hds hes => exact List.forall_mem_append.mpr ⟨hds.numberChar, hes.numberChar⟩
  | minus hds hes =>
    refine List.forall_mem_cons.mpr ⟨.inr (by decide), ?_⟩
    exact List.forall_mem_append.mpr ⟨hds.numberChar, hes.numberChar⟩

/-- A number is kept. -/
theorem compacts_numberText {cs : List Char} (h : NumberText cs) :
    Compacts .outside cs .outside cs := by
  refine compacts_plain fun c hc => ?_
  have hnumber := h.numberChar c hc
  refine ⟨?_, ?_, ?_⟩ <;> rintro rfl <;> exact absurd hnumber (by decide)

/-- A hexadecimal digit neither ends a literal nor starts an escape. -/
theorem step_inside_of_hexDigit {c : Char} (h : (hexDigit? c).isSome = true) :
    Place.inside.step c = .inside := by
  have hquote : c ≠ '"' := by
    rintro rfl
    exact absurd h (by decide)
  have hslash : c ≠ '\\' := by
    rintro rfl
    exact absurd h (by decide)
  rw [Place.step, if_neg hquote, if_neg hslash]

theorem isSome_hexDigit?_of_hexQuad? {a b c d : Char} (h : (hexQuad? a b c d).isSome = true) :
    (hexDigit? a).isSome = true ∧ (hexDigit? b).isSome = true ∧ (hexDigit? c).isSome = true ∧
      (hexDigit? d).isSome = true := by
  obtain ⟨n, hn⟩ := Option.isSome_iff_exists.mp h
  simp only [hexQuad?, Option.bind_eq_bind, Option.bind_eq_some_iff] at hn
  obtain ⟨i, hi, j, hj, k, hk, l, hl, -⟩ := hn
  exact ⟨Option.isSome_of_eq_some hi, Option.isSome_of_eq_some hj, Option.isSome_of_eq_some hk,
    Option.isSome_of_eq_some hl⟩

/-- A character of a literal, or its escape, is kept and stays in the literal. -/
theorem compacts_charText {part : List Char} (h : CharText part) :
    Compacts .inside part .inside part := by
  have hinside : Place.inside = .outside → ∀ c : Char, c ≠ ' ' ∧ c ≠ '\n' := fun h => nomatch h
  cases h with
  | @plain c hquote hslash _ =>
    have hstep : Place.inside.step c = .inside := by
      rw [Place.step, if_neg hquote, if_neg hslash]
    refine .keep (fun h => hinside h c) ?_
    rw [hstep]
    exact .nil
  | escape => exact ⟨rfl, rfl⟩
  | @code a b c d hquad =>
    obtain ⟨ha, hb, hc, hd⟩ := isSome_hexDigit?_of_hexQuad? hquad
    have hdigits : Compacts .inside [a, b, c, d] .inside [a, b, c, d] := by
      refine .keep (fun h => hinside h a) ?_
      rw [step_inside_of_hexDigit ha]
      refine .keep (fun h => hinside h b) ?_
      rw [step_inside_of_hexDigit hb]
      refine .keep (fun h => hinside h c) ?_
      rw [step_inside_of_hexDigit hc]
      refine .keep (fun h => hinside h d) ?_
      rw [step_inside_of_hexDigit hd]
      exact .nil
    have hescape : Compacts .inside ['\\', 'u'] .inside ['\\', 'u'] := ⟨rfl, rfl⟩
    exact hescape.append hdigits

/-- A string literal is kept. -/
theorem compacts_stringText {cs : List Char} (h : StringText cs) :
    Compacts .outside cs .outside cs := by
  have hopening : Compacts .outside ['"'] .inside ['"'] := ⟨rfl, rfl⟩
  have hclosing : Compacts .inside ['"'] .outside ['"'] := ⟨rfl, rfl⟩
  cases h with
  | @quoted parts hparts =>
    have hinner : Compacts .inside parts.flatten .inside parts.flatten := by
      induction parts with
      | nil => exact .nil
      | cons part parts ih =>
        obtain ⟨hpart, hparts⟩ := List.forall_mem_cons.mp hparts
        exact (compacts_charText hpart).append (ih hparts)
    exact (hopening.append hinner).append hclosing

/-! ### Brackets -/

theorem compacts_line (layout : Layout) (depth : Nat) :
    Compacts .outside (layout.line depth) .outside [] := by
  refine compacts_spaces fun c hc => ?_
  cases layout with
  | compact => exact absurd hc List.not_mem_nil
  | pretty =>
    rcases List.mem_cons.mp hc with rfl | hc
    · exact .inr rfl
    · exact .inl (List.eq_of_mem_replicate hc)

theorem compacts_colon (layout : Layout) :
    Compacts .outside layout.colon .outside Layout.compact.colon := by
  cases layout <;> exact ⟨rfl, rfl⟩

/-- Parts with commas and white space between them are compacted to parts with commas. -/
theorem compacts_intercalate {space : List Char} (hspace : Compacts .outside space .outside [])
    {parts parts' : List (List Char)}
    (h : List.Forall₂ (fun cs ds => Compacts .outside cs .outside ds) parts parts') :
    Compacts .outside ((',' :: space).intercalate parts) .outside ([','].intercalate parts') := by
  induction h with
  | nil => exact .nil
  | cons hpart hparts ih =>
    cases hparts with
    | nil =>
      rw [List.intercalate_singleton, List.intercalate_singleton]
      exact hpart
    | cons hpart' hparts =>
      have hcomma : Compacts .outside (',' :: space) .outside [','] :=
        .keep (by decide) hspace
      rw [List.intercalate_cons_cons, List.intercalate_cons_cons]
      exact (hpart.append hcomma).append ih

/-- Brackets around parts are compacted to brackets around the compacted parts. -/
theorem compacts_bracketed (layout : Layout) (depth : Nat) {opening closing : Char}
    (hopening : opening ≠ '"' ∧ opening ≠ ' ' ∧ opening ≠ '\n')
    (hclosing : closing ≠ '"' ∧ closing ≠ ' ' ∧ closing ≠ '\n') {parts parts' : List (List Char)}
    (h : List.Forall₂ (fun cs ds => Compacts .outside cs .outside ds) parts parts') :
    Compacts .outside (layout.bracketed depth opening closing parts) .outside
      (Layout.compact.bracketed depth opening closing parts') := by
  have hfirst := compacts_plain (List.forall_mem_singleton.mpr hopening)
  have hlast := compacts_plain (List.forall_mem_singleton.mpr hclosing)
  have hinner := compacts_intercalate (compacts_line layout (depth + 1)) h
  rw [Layout.bracketed, Layout.bracketed]
  cases h with
  | nil => exact hfirst.append hlast
  | cons hpart hparts =>
    exact (((hfirst.append (compacts_line layout (depth + 1))).append hinner).append
      (compacts_line layout depth)).append hlast

/-! ### Values -/

/-- Every layout of a value is compacted to the layout without white space. -/
theorem compacts_written (layout : Layout) (depth : Nat) (v : Value) :
    Compacts .outside (layout.written depth v) .outside (Layout.compact.written depth v) := by
  have hnull : Compacts .outside "null".toList .outside "null".toList := ⟨rfl, rfl⟩
  induction v using Value.induction generalizing depth with
  | undefined => exact hnull
  | null => exact hnull
  | boolean b => cases b <;> exact ⟨rfl, rfl⟩
  | float x =>
    rw [Layout.written, Layout.written]
    split
    · exact compacts_numberText (numberText_plainText x)
    · exact hnull
  | integer n => exact compacts_numberText (numberText_integerText n.toInt)
  | string s => exact compacts_stringText (stringText_literal s)
  | array items ih =>
    rw [Layout.written_array, Layout.written_array]
    refine compacts_bracketed layout depth (by decide) (by decide) ?_
    rw [List.forall₂_map_left_iff, List.forall₂_map_right_iff, List.forall₂_same]
    exact fun v hv => ih v hv (depth + 1)
  | object members ih =>
    rw [Layout.written_object, Layout.written_object, Layout.writtenObject, Layout.writtenObject,
      Mapping.entries_map, Mapping.entries_map, List.map_map, List.map_map]
    refine compacts_bracketed layout depth (by decide) (by decide) ?_
    rw [List.forall₂_map_left_iff, List.forall₂_map_right_iff, List.forall₂_same]
    intro m hm
    have hmem := (Value.mem_definedMembers.mp (Mapping.mem_of_mem_ofList hm)).1
    exact ((compacts_stringText (stringText_literal m.1)).append (compacts_colon layout)).append
      (ih m hmem (depth + 1))

/-- The indented text of a value, without its spaces and newlines outside string literals, is the
text without white space, which itself has none to lose.  The same holds for a mapping. -/
theorem compacted_text_eq :
    (∀ v : Value, String.ofList (compacted .outside (Layout.pretty.text v).toList) =
      Layout.compact.text v) ∧
    (∀ m : Mapping Value, String.ofList (compacted .outside (Layout.pretty.mappingText m).toList) =
      Layout.compact.mappingText m) ∧
    ∀ v : Value, String.ofList (compacted .outside (Layout.compact.text v).toList) =
      Layout.compact.text v := by
  have htext (layout : Layout) (v : Value) :
      String.ofList (compacted .outside (layout.text v).toList) = Layout.compact.text v := by
    rw [Layout.text, String.toList_ofList, (compacts_written layout 0 v).text, Layout.text]
  refine ⟨htext .pretty, fun m => ?_, htext .compact⟩
  rw [Layout.mappingText_eq_text, Layout.mappingText_eq_text, htext]

example :
    compacted .outside "[ \"a \\\" b\",\n  1 ]".toList = "[\"a \\\" b\",1]".toList := by decide

end Comprehension.Json
