import Comprehension.Proofs.CommandLine.Responses
import Comprehension.Proofs.Evaluation
import Comprehension.Proofs.Json.Compaction

/-!
# Control characters in printed JSON

Whatever characters a value holds, its text without white space has no control character, since the
names and texts of the value are escaped and everything else is written with visible characters.
The indented text differs from it only in spaces and newlines outside string literals, so these
newlines are its only control characters.

## Main definitions

* `Text.Visible`: texts without control characters.

## Main results

* `Json.visible_literal`: no control character is left in a string literal.
* `Json.visible_written`: the text of a value without white space.
* `Json.eq_newline_of_isControl`: the control characters of an indented text.
* `Json.printed_text_visible`: all that is printed of values, mappings and entries.
-/

namespace Comprehension

open Text

/-- A text without control characters. -/
def Text.Visible (cs : List Char) : Prop := ∀ c ∈ cs, isControl c = false

instance (cs : List Char) : Decidable (Text.Visible cs) :=
  List.decidableBAll (fun c => isControl c = false) cs

theorem Text.Visible.append {cs ds : List Char} (hcs : Visible cs) (hds : Visible ds) :
    Visible (cs ++ ds) :=
  List.forall_mem_append.mpr ⟨hcs, hds⟩

namespace Json

/-! ### Scalars -/

theorem isControl_of_isDigit {c : Char} (h : c.isDigit = true) : isControl c = false := by
  rw [Char.isDigit_iff_toNat] at h
  have hzero : '0'.toNat = 48 := rfl
  have hnine : '9'.toNat = 57 := rfl
  simp only [isControl, Bool.or_eq_false_iff, Bool.and_eq_false_iff, decide_eq_false_iff_not]
  omega

/-- Numbers are written with visible characters. -/
theorem visible_numberText {cs : List Char} (h : NumberText cs) : Visible cs := by
  have hmarks : Visible ['-', '+', '.', 'e', 'E'] := by decide
  intro c hc
  rcases h.numberChar c hc with hdigit | hmark
  · exact isControl_of_isDigit hdigit
  · exact hmarks c hmark

/-- The digits of an escape are visible. -/
theorem visible_hexQuad : ∀ {n : Nat}, n < 0xA0 → Visible (hexQuad n) := by
  decide +kernel

theorem visible_escaped (c : Char) : Visible (escaped c) := by
  rw [escaped]
  split_ifs with hquote hslash hline hreturn htab hcontrol
  · decide
  · decide
  · decide
  · decide
  · decide
  · have hmark : Visible ['\\', 'u'] := by decide
    exact hmark.append (visible_hexQuad (toNat_lt_of_isControl hcontrol))
  · exact List.forall_mem_singleton.mpr (Bool.eq_false_iff.mpr hcontrol)

/-- No control character is left in a string literal. -/
theorem visible_literal (s : String) : Visible (literal s) := by
  refine Visible.append (List.forall_mem_cons.mpr ⟨rfl, ?_⟩) (List.forall_mem_singleton.mpr rfl)
  exact List.forall_mem_flatMap.mpr fun c _ => visible_escaped c

/-! ### Values -/

theorem visible_intercalate {sep : List Char} (hsep : Visible sep) {parts : List (List Char)}
    (hparts : ∀ part ∈ parts, Visible part) : Visible (sep.intercalate parts) := by
  induction parts with
  | nil => exact List.forall_mem_nil _
  | cons part parts ih =>
    obtain ⟨hpart, hrest⟩ := List.forall_mem_cons.mp hparts
    cases parts with
    | nil =>
      rw [List.intercalate_singleton]
      exact hpart
    | cons part' parts =>
      rw [List.intercalate_cons_cons]
      exact (hpart.append hsep).append (ih hrest)

/-- Brackets around visible parts, without white space. -/
theorem visible_bracketed (depth : Nat) {opening closing : Char} (hopening : Visible [opening])
    (hclosing : Visible [closing]) {parts : List (List Char)}
    (hparts : ∀ part ∈ parts, Visible part) :
    Visible (Layout.compact.bracketed depth opening closing parts) := by
  have hinner : Visible ([','].intercalate parts) := visible_intercalate (by decide) hparts
  rw [Layout.bracketed]
  split
  · exact hopening.append hclosing
  · exact ((hopening.append hinner).append (List.forall_mem_nil _)).append hclosing

/-- The text of a value without white space is visible. -/
theorem visible_written (depth : Nat) (v : Value) : Visible (Layout.compact.written depth v) := by
  have hnull : Visible "null".toList := by decide
  have hcolon : Visible Layout.compact.colon := by decide
  induction v using Value.induction generalizing depth with
  | undefined => exact hnull
  | null => exact hnull
  | boolean b =>
    have hboolean : ∀ b : Bool, Visible (if b then "true".toList else "false".toList) := by decide
    exact hboolean b
  | float x =>
    rw [Layout.written]
    split
    · exact visible_numberText (numberText_plainText x)
    · exact hnull
  | integer n => exact visible_numberText (numberText_integerText n.toInt)
  | string s => exact visible_literal s
  | array items ih =>
    rw [Layout.written_array]
    refine visible_bracketed depth (by decide) (by decide) fun part hpart => ?_
    obtain ⟨v, hv, rfl⟩ := List.mem_map.mp hpart
    exact ih v hv (depth + 1)
  | object members ih =>
    rw [Layout.written_object, Layout.writtenObject, Mapping.entries_map, List.map_map]
    refine visible_bracketed depth (by decide) (by decide) fun part hpart => ?_
    obtain ⟨m, hm, rfl⟩ := List.mem_map.mp hpart
    have hmem := (Value.mem_definedMembers.mp (Mapping.mem_of_mem_ofList hm)).1
    exact ((visible_literal m.1).append hcolon).append (ih m hmem (depth + 1))

theorem visible_text (v : Value) : Visible (Layout.compact.text v).toList := by
  rw [Layout.text, String.toList_ofList]
  exact visible_written 0 v

theorem visible_mappingText (m : Mapping Value) :
    Visible (Layout.compact.mappingText m).toList := by
  rw [Layout.mappingText_eq_text]
  exact visible_text (.ofMapping m)

/-! ### Indented texts -/

/-- A character that is not kept is a space or a newline outside string literals. -/
theorem outside_of_notMem_compacted {p : Place} {before after : List Char} {c : Char}
    (h : c ∉ compacted p (before ++ c :: after)) :
    p.run before = .outside ∧ (c = ' ' ∨ c = '\n') := by
  rw [compacted_append, List.mem_append, not_or] at h
  by_contra hkept
  refine h.2 ?_
  rw [compacted, if_neg hkept]
  exact List.mem_cons_self

/-- The control characters of an indented text are newlines outside string literals. -/
theorem eq_newline_of_isControl {v : Value} {before after : List Char} {c : Char}
    (htext : (Layout.pretty.text v).toList = before ++ c :: after) (hc : isControl c = true) :
    c = '\n' ∧ Place.outside.run before = .outside := by
  have hcompacted : compacted .outside (before ++ c :: after) = Layout.compact.written 0 v := by
    rw [← htext, Layout.text, String.toList_ofList]
    exact (compacts_written .pretty 0 v).text
  have hnotMem : c ∉ compacted .outside (before ++ c :: after) := by
    intro hmem
    rw [hcompacted] at hmem
    exact absurd (visible_written 0 v c hmem) (by simp [hc])
  obtain ⟨houtside, rfl | rfl⟩ := outside_of_notMem_compacted hnotMem
  · exact absurd hc (by decide)
  · exact ⟨rfl, houtside⟩

/-! ### Entries and answers -/

/-- The entry in an error of unpacking is written without control characters. -/
theorem visible_of_cannotUnpack {t : Template} {entry : String} {names : List String}
    (h : t.evaluate = .error (.evaluation (.cannotUnpack entry names))) :
    Visible entry.toList := by
  cases hp : Plan.ofTemplate t with
  | error e =>
    rw [Template.evaluate, Template.run, hp] at h
    exact absurd (Except.error.inj h) (by simp)
  | ok p =>
    rw [evaluate_eq hp, except_mapError_eq_error_iff] at h
    obtain ⟨err, hrun, herr⟩ := h
    obtain rfl := Failure.evaluation.inj herr
    obtain ⟨_, e, _, -, -, hfails⟩ := Plan.fill_eq_error_iff.mp hrun
    cases hfails
    exact visible_text e

/-- An evaluation that answers without indentation answers one line. -/
theorem exists_line_of_respond {o : CommandLine.Options} (h : o.pretty = false)
    {input : Option String}
    (hexit : ((CommandLine.Invocation.evaluate o).respond input).exitCode = 0) :
    ∃ line : String, ((CommandLine.Invocation.evaluate o).respond input).output = line ++ "\n" ∧
      Visible line.toList := by
  have hlayout : o.layout = .compact := by rw [CommandLine.Options.layout, h, if_neg (by decide)]
  rcases o.respond_cases input with ⟨m, hresult⟩ | ⟨e, herror, hnull⟩
  · refine ⟨Layout.compact.mappingText m, ?_, visible_mappingText m⟩
    rw [← hlayout]
    exact congrArg CommandLine.Response.output (hresult o.safe)
  · cases hsafe : o.safe with
    | false =>
      have ho : { o with safe := false } = o := by rw [← hsafe]
      rw [← ho, herror] at hexit
      exact absurd hexit Nat.one_ne_zero
    | true =>
      have ho : { o with safe := true } = o := by rw [← hsafe]
      rw [← ho, hnull]
      exact ⟨"null", rfl, by decide⟩

/-- The text of a value or a mapping without white space has no control character.  In the indented
text every control character is a newline, and stands outside the string literals.  The text of an
entry that cannot be unpacked has no control character, and an evaluation that answers without
indentation answers one line. -/
theorem printed_text_visible :
    (∀ v : Value, Visible (Layout.compact.text v).toList) ∧
    (∀ (v : Value) (before after : List Char) (c : Char),
      (Layout.pretty.text v).toList = before ++ c :: after → isControl c = true →
        c = '\n' ∧ Place.outside.run before = .outside) ∧
    (∀ m : Mapping Value, Visible (Layout.compact.mappingText m).toList) ∧
    (∀ (m : Mapping Value) (before after : List Char) (c : Char),
      (Layout.pretty.mappingText m).toList = before ++ c :: after → isControl c = true →
        c = '\n' ∧ Place.outside.run before = .outside) ∧
    (∀ (t : Template) (entry : String) (names : List String),
      t.evaluate = .error (.evaluation (.cannotUnpack entry names)) → Visible entry.toList) ∧
    ∀ (o : CommandLine.Options) (input : Option String), o.pretty = false →
      ((CommandLine.Invocation.evaluate o).respond input).exitCode = 0 →
        ∃ line : String, Visible line.toList ∧
          ((CommandLine.Invocation.evaluate o).respond input).output = line ++ "\n" := by
  refine ⟨visible_text, fun v before after c => eq_newline_of_isControl, visible_mappingText,
    fun m before after c htext => ?_, fun t entry names => visible_of_cannotUnpack,
    fun o input h hexit => ?_⟩
  · rw [Layout.mappingText_eq_text] at htext
    exact eq_newline_of_isControl htext
  · obtain ⟨line, houtput, hline⟩ := exists_line_of_respond h hexit
    exact ⟨line, hline, houtput⟩

/-- The newline and the delete character of an item are escaped, and the newline in front of the
item stands outside it. -/
theorem printed_text_visible_of_newline :
    let v : Value := .array [.string "a\nb\u007f"]
    (Layout.pretty.text v).toList = ['['] ++ '\n' :: "  \"a\\nb\\u007f\"\n]".toList ∧
      Place.outside.run ['['] = .outside ∧ Visible (Layout.compact.text v).toList := by
  intro v
  have htext : (Layout.pretty.text v).toList =
      ['['] ++ '\n' :: "  \"a\\nb\\u007f\"\n]".toList := by decide
  exact ⟨htext, (printed_text_visible.2.1 v _ _ _ htext rfl).2, printed_text_visible.1 v⟩

end Json

end Comprehension
