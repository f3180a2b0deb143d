import Comprehension.Proofs.CommandLine.Slots
import Comprehension.Proofs.Json.Grammar

/-!
# What an evaluation answers

An evaluation has one of two answers: a JSON text on the output with exit code 0, or the message of
an error on the error stream with exit code 1.  Whether failures are allowed decides nothing but
what is answered in place of an error, and since a written mapping starts with a brace, that answer
is not the result of an evaluation.

## Main definitions

* `Response.IsResult`, `Response.IsFailure`: the two answers.

## Main results

* `Options.respond_cases`: the answers of an evaluation without and with failures allowed.
* `evaluations_answer_result_or_failure`: the answers of all evaluations that can be asked for.
-/

namespace Comprehension.CommandLine

namespace Response

/-- A result is one JSON text and a line end, and nothing on the error stream. -/
def IsResult (r : Response) : Prop := ∃ text, Json.IsJson text ∧ r = ⟨0, text ++ "\n", ""⟩

/-- A failure is the message of one error and a line end, and nothing on the output. -/
def IsFailure (r : Response) : Prop := ∃ e : CommandError, r = ⟨1, "", e.message ++ "\n"⟩

theorem not_isFailure_of_isResult {r : Response} (h : r.IsResult) : ¬ r.IsFailure := by
  obtain ⟨text, -, rfl⟩ := h
  rintro ⟨e, he⟩
  exact Nat.zero_ne_one (congrArg exitCode he)

theorem isResult_mappingText (layout : Json.Layout) (m : Mapping Value) :
    IsResult ⟨0, layout.mappingText m ++ "\n", ""⟩ :=
  ⟨_, Json.isJson_mappingText layout m, rfl⟩

theorem isResult_null : IsResult ⟨0, "null\n", ""⟩ :=
  ⟨"null", Json.isJson_text .compact .null, rfl⟩

theorem isFailure_message (e : CommandError) : IsFailure ⟨1, "", e.message ++ "\n"⟩ := ⟨e, rfl⟩

end Response

/-- A written mapping starts with a brace, so it is not null. -/
theorem mappingText_ne_null (layout : Json.Layout) (m : Mapping Value) :
    layout.mappingText m ++ "\n" ≠ "null\n" := by
  intro h
  have hhead := congrArg (fun s => s.toList.head?) h
  simp only [String.toList_append] at hhead
  rw [List.head?_append, Json.head?_mappingText, Option.some_or] at hhead
  exact absurd hhead (by decide)

namespace Options

variable (o : Options)

/-- The answer of an evaluation is the outcome with its own input or, where that is missing, with
the standard input.  Allowing failures does not change the input. -/
theorem exists_input_respond_eq (input : Option String) : ∃ input?, ∀ safe,
    (Invocation.evaluate { o with safe }).respond input =
      .ofOutcome ({ o with input?, safe } : Options).outcome := by
  by_cases h : o.HasInput
  · refine ⟨o.input?, fun safe => ?_⟩
    rw [← response_eq]
    exact response_of_hasInput (o := { o with safe }) h input
  · refine ⟨input, fun safe => ?_⟩
    rw [← response_eq]
    exact response_of_not_hasInput (o := { o with safe }) h input

/-- An evaluation has the same result whether failures are allowed or not, or it has an error and
is answered with null when they are. -/
theorem respond_cases (input : Option String) :
    (∃ m, ∀ safe, (Invocation.evaluate { o with safe }).respond input =
      ⟨0, o.layout.mappingText m ++ "\n", ""⟩) ∨
    ∃ e : CommandError,
      (Invocation.evaluate { o with safe := false }).respond input = ⟨1, "", e.message ++ "\n"⟩ ∧
      (Invocation.evaluate { o with safe := true }).respond input = ⟨0, "null\n", ""⟩ := by
  obtain ⟨input?, hrespond⟩ := o.exists_input_respond_eq input
  have hmapping : ∀ safe, ({ o with input?, safe } : Options).mapping =
      ({ o with input? } : Options).mapping := fun _ => rfl
  cases hresult : ({ o with input? } : Options).mapping with
  | ok m =>
    refine .inl ⟨m, fun safe => ?_⟩
    rw [hrespond, outcome, hmapping, hresult]
    rfl
  | error e =>
    refine .inr ⟨e, ?_, ?_⟩
    · rw [hrespond, outcome, hmapping, hresult]
      rfl
    · rw [hrespond, outcome, hmapping, hresult]
      rfl

/-- Where failures are allowed, an evaluation answers with a result. -/
theorem isResult_respond (h : o.safe = true) (input : Option String) :
    ((Invocation.evaluate o).respond input).IsResult := by
  have ho : { o with safe := true } = o := by rw [← h]
  rcases o.respond_cases input with ⟨m, hresult⟩ | ⟨e, -, hnull⟩
  · rw [← ho, hresult]
    exact Response.isResult_mappingText o.layout m
  · rw [← ho, hnull]
    exact Response.isResult_null

/-- Where failures are not allowed, an evaluation answers with a mapping or with an error. -/
theorem respond_cases_of_unsafe (h : o.safe = false) (input : Option String) :
    (∃ m, (Invocation.evaluate o).respond input = ⟨0, o.layout.mappingText m ++ "\n", ""⟩) ∨
    ∃ e : CommandError, (Invocation.evaluate o).respond input = ⟨1, "", e.message ++ "\n"⟩ := by
  have ho : { o with safe := false } = o := by rw [← h]
  rcases o.respond_cases input with ⟨m, hresult⟩ | ⟨e, herror, -⟩
  · exact .inl ⟨m, by rw [← hresult false, ho]⟩
  · exact .inr ⟨e, by rw [← herror, ho]⟩

theorem isResult_or_isFailure_respond (input : Option String) :
    ((Invocation.evaluate o).respond input).IsResult ∨
      ((Invocation.evaluate o).respond input).IsFailure := by
  cases hsafe : o.safe with
  | true => exact .inl (o.isResult_respond hsafe input)
  | false =>
    rcases o.respond_cases_of_unsafe hsafe input with ⟨m, h⟩ | ⟨e, h⟩
    · rw [h]
      exact .inl (Response.isResult_mappingText o.layout m)
    · exact .inr ⟨e, h⟩

/-- Where failures are not allowed, an evaluation does not answer null. -/
theorem output_respond_ne_null (h : o.safe = false) (input : Option String) :
    ((Invocation.evaluate o).respond input).output ≠ "null\n" := by
  rcases o.respond_cases_of_unsafe h input with ⟨m, hresult⟩ | ⟨e, herror⟩
  · rw [hresult]
    exact mappingText_ne_null o.layout m
  · rw [herror]
    exact (by decide : "" ≠ "null\n")

/-- The standard input makes no difference where there is an input or none is needed. -/
theorem respond_eq_respond (h : o.HasInput) (input input' : Option String) :
    (Invocation.evaluate o).respond input = (Invocation.evaluate o).respond input' := by
  rw [← response_eq, ← response_eq, response_of_hasInput h, response_of_hasInput h]

end Options

/-- Every evaluation answers with a result or a failure and never with both, and with a result when
failures are allowed.  When they are not, it does not answer null.  The standard input makes a
difference only where there is no input and the expression has more places than there are slot
texts.  An evaluation that is asked for without and with failures allowed has the same result, and
answers null in the second case exactly when it fails in the first. -/
theorem evaluations_answer_result_or_failure :
    (∀ (arguments : List String) (o : Options), Invocation.ofArguments arguments = .evaluate o →
      (∀ input, let r := (Invocation.ofArguments arguments).respond input
        ((r.IsResult ∧ ¬ r.IsFailure) ∨ (r.IsFailure ∧ ¬ r.IsResult)) ∧
        (o.safe = true → r.IsResult) ∧ (o.safe = false → r.output ≠ "null\n")) ∧
      (¬ (o.input? = none ∧ o.slots.length < o.markers) → ∀ input input',
        (Invocation.ofArguments arguments).respond input =
          (Invocation.ofArguments arguments).respond input')) ∧
    ∀ (arguments safeArguments : List String) (o : Options),
      Invocation.ofArguments arguments = .evaluate { o with safe := false } →
      Invocation.ofArguments safeArguments = .evaluate { o with safe := true } →
      ∀ input, let r := (Invocation.ofArguments arguments).respond input
        let s := (Invocation.ofArguments safeArguments).respond input
        (r.IsResult → s = r) ∧ (r.IsFailure → s = ⟨0, "null\n", ""⟩) ∧
          (s.output = "null\n" ↔ r.IsFailure) := by
  refine ⟨fun arguments o harguments => ?_, ?_⟩
  · rw [harguments]
    refine ⟨fun input => ⟨?_, fun h => o.isResult_respond h input,
      fun h => o.output_respond_ne_null h input⟩, fun h => ?_⟩
    · rcases o.isResult_or_isFailure_respond input with hresult | hfailure
      · exact .inl ⟨hresult, Response.not_isFailure_of_isResult hresult⟩
      · exact .inr ⟨hfailure, fun h => Response.not_isFailure_of_isResult h hfailure⟩
    · exact o.respond_eq_respond fun hneeds hnone => h ⟨hnone, hneeds⟩
  · intro arguments safeArguments o harguments hsafe input
    rw [harguments, hsafe]
    rcases o.respond_cases input with ⟨m, hresult⟩ | ⟨e, herror, hnull⟩
    · have hnone := Response.not_isFailure_of_isResult (Response.isResult_mappingText o.layout m)
      rw [hresult, hresult]
      exact ⟨fun _ => rfl, fun h => absurd h hnone, fun h => absurd h (mappingText_ne_null _ m),
        fun h => absurd h hnone⟩
    · have hfailure := Response.isFailure_message e
      rw [herror, hnull]
      exact ⟨fun h => absurd hfailure (Response.not_isFailure_of_isResult h), fun _ => rfl,
        fun _ => hfailure, fun _ => rfl⟩

/-- An empty expression fails, and null is answered when failures are allowed.  A slot that is
filled with one item gives the mapping of that item in both cases. -/
theorem empty_and_filled_expressions_answer :
    let o : Options := ⟨"", [], none, false, false⟩
    let filled : Options := ⟨"\x7bit: it over $\x7b\x7d\x7d", ["[\"a\"]"], none, false, false⟩
    ∀ input, o.response input = ⟨1, "", "Parse error: expecting a key\n"⟩ ∧
      ({ o with safe := true } : Options).response input = ⟨0, "null\n", ""⟩ ∧
      filled.response input = ⟨0, "\x7b\"a\":\"a\"\x7d\n", ""⟩ ∧
      ({ filled with safe := true } : Options).response input = filled.response input := by
  intro o filled input
  have hinput : o.HasInput := fun hneeds => absurd hneeds (by decide)
  have houtcome : o.outcome = .error (.parse (.missing .key)) := by decide
  have herror : o.response input = ⟨1, "", "Parse error: expecting a key\n"⟩ := by
    rw [Options.response_of_hasInput hinput, houtcome]
    rfl
  let t : Template := itemTemplate [.string "a"]
  let m : Mapping Value := Mapping.ofList [("a", .string "a")]
  have hfilled : filled.HasInput := fun hneeds => absurd hneeds (by decide)
  have hfloat : (Value.array [.string "a"]).FloatFree :=
    Value.floatFree_array_iff.mpr (List.forall_mem_singleton.mpr (by rintro x ⟨⟩))
  have hprinted : Json.Layout.compact.text (.array [.string "a"]) = "[\"a\"]" := by decide
  have hread : Json.read? "[\"a\"]" = some (.array [.string "a"]) := by
    rw [← hprinted]
    exact Json.read?_written .compact hfloat (by decide)
  have htexts : filled.texts = ["[\"a\"]"] := if_neg (by decide)
  have hslots : List.Forall₂ Denotes filled.texts t.slots := by
    rw [htexts]
    exact .cons ⟨_, hread, rfl⟩ .nil
  have hfills : filled.Fills t := ⟨by decide, by decide, hslots⟩
  have hevaluate : t.evaluate = .ok m := evaluate_itemTemplate (.cons ⟨rfl, rfl⟩ .nil)
  have htext : Json.Layout.compact.mappingText m = "\x7b\"a\":\"a\"\x7d" := by decide
  have hresult : filled.response input = ⟨0, "\x7b\"a\":\"a\"\x7d" ++ "\n", ""⟩ := by
    rw [Options.response_of_hasInput hfilled, Options.outcome, hfills.mapping_eq hfilled, hevaluate,
      ← htext]
    rfl
  have hsafe := evaluations_answer_result_or_failure.2 o.arguments _ o o.ofArguments_arguments
    ({ o with safe := true } : Options).ofArguments_arguments input
  have hsame := evaluations_answer_result_or_failure.2 filled.arguments _ filled
    filled.ofArguments_arguments ({ filled with safe := true } : Options).ofArguments_arguments input
  exact ⟨herror, hsafe.2.1 ⟨.parse (.missing .key), herror⟩, hresult,
    hsame.1 ⟨_, htext ▸ Json.isJson_mappingText .compact m, hresult⟩⟩

end Comprehension.CommandLine
