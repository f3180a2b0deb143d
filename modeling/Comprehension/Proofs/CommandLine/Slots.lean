import Comprehension.Proofs.CommandLine.Arguments
import Comprehension.Proofs.Json.RoundTrip
import Comprehension.Proofs.Rebuilding
import Comprehension.Proofs.Template
import Mathlib.Data.List.Forall2

/-!
# How slots are filled

The texts that fill the slots of an expression are its slot texts and, where these are too few, the
input.  Once an input is there if one is needed, an evaluation depends on the expression and on
these texts alone, whichever way they are given.  What can be wrong with the texts comes in an
order: a slot text, the missing input, the input, and the number of texts.

## Main definitions

* `Options.markers`, `Options.texts`: the places for slots and the texts that fill them.
* `Options.SlotFault`: what is wrong with the texts.
* `Options.Fills`: the template of an expression with its slots filled.

## Main results

* `Options.mapping_eq_mappingOf`: an evaluation depends on the expression and the texts.
* `slot_texts_and_input_agree`: the ways of giving the last text agree, and errors come in order.
-/

namespace Comprehension.CommandLine

theorem toList_marker : marker.toList = '$' :: ['{', '}'] := rfl

/-- The markers that are counted are all places where the marker stands. -/
theorem occurrences_marker (text : String) :
    Text.occurrences marker.toList text.toList = Text.places marker.toList text.toList := by
  rw [toList_marker, Text.occurrences_eq_places (by decide)]

/-- A text denotes the slot of the value that it is the JSON text of. -/
def Denotes (text : String) (x : Slot) : Prop := ∃ v, Json.read? text = some v ∧ x = .value v

namespace Options

/-- The number of places where the marker stands in the expression. -/
def markers (o : Options) : Nat := Text.places marker.toList o.expression.toList

/-- The texts that fill slots: the slot texts and, where they are too few, the input. -/
def texts (o : Options) : List String :=
  if o.slots.length < o.markers then o.slots ++ o.input?.toList else o.slots

/-- An input is there if one is needed. -/
def HasInput (o : Options) : Prop := o.slots.length < o.markers → o.input? ≠ none

/-- What is wrong with the texts that fill slots.  Each case comes after the ones before it, and a
slot text after those before it. -/
inductive SlotFault (o : Options) : CommandError → Prop
  | slot {before after : List String} {text : String} :
      o.slots = before ++ text :: after → (∀ text ∈ before, Json.read? text ≠ none) →
      Json.read? text = none → SlotFault o (@CommandError.invalidJson text)
  | absent :
      (∀ text ∈ o.slots, Json.read? text ≠ none) → o.slots.length < o.markers →
      o.input? = none → SlotFault o .noInput
  | input {text : String} :
      (∀ text ∈ o.slots, Json.read? text ≠ none) → o.slots.length < o.markers →
      o.input? = some text → Json.read? text = none → SlotFault o (@CommandError.invalidJson text)
  | count {k : Nat} :
      o.HasInput → (∀ text ∈ o.texts, Json.read? text ≠ none) →
      k = (if o.slots.length < o.markers then o.slots.length + 1 else o.slots.length) →
      k ≠ o.markers → SlotFault o (.parse (.segmentMismatch (o.markers + 1) k))

/-- The template of an expression with its slots filled: its segments give the expression when the
marker joins them and do not contain it, and its slots are what the texts denote. -/
structure Fills (o : Options) (t : Template) : Prop where
  segments : marker.intercalate t.segments = o.expression
  free : ∀ segment ∈ t.segments, ¬ marker.toList <:+: segment.toList
  slots : List.Forall₂ Denotes o.texts t.slots

end Options

/-- The mapping of an expression whose slots are filled with texts. -/
def mappingOf (expression : String) (texts : List String) :
    Except CommandError (Mapping Value) := do
  let slots ← texts.mapM readSlot
  let t ← (Template.split expression marker slots).mapError .parse
  t.evaluate.mapError .ofFailure

/-! ### Reading the texts -/

/-- Texts that denote values are read as these. -/
theorem mapM_readSlot_eq_ok {texts : List String} {slots : List Slot}
    (h : List.Forall₂ Denotes texts slots) : texts.mapM readSlot = .ok slots := by
  induction h with
  | nil => rfl
  | cons htext _ ih =>
    obtain ⟨v, hv, rfl⟩ := htext
    rw [List.mapM_cons, readSlot, hv, ih]
    rfl

theorem exists_denotes_of_forall_ne_none {texts : List String}
    (h : ∀ text ∈ texts, Json.read? text ≠ none) : ∃ slots, List.Forall₂ Denotes texts slots := by
  induction texts with
  | nil => exact ⟨[], .nil⟩
  | cons text texts ih =>
    obtain ⟨htext, htexts⟩ := List.forall_mem_cons.mp h
    obtain ⟨v, hv⟩ := Option.ne_none_iff_exists'.mp htext
    obtain ⟨slots, hslots⟩ := ih htexts
    exact ⟨.value v :: slots, .cons ⟨v, hv, rfl⟩ hslots⟩

/-- The first text that denotes no value is the error of the texts. -/
theorem mapM_readSlot_eq_error {before after : List String} {text : String}
    (hbefore : ∀ text ∈ before, Json.read? text ≠ none) (h : Json.read? text = none) :
    (before ++ text :: after).mapM readSlot = .error (@CommandError.invalidJson text) := by
  obtain ⟨slots, hread⟩ := exists_denotes_of_forall_ne_none hbefore
  rw [List.mapM_append, mapM_readSlot_eq_ok hread, List.mapM_cons, readSlot, h]
  rfl

/-- Some text is the first that denotes no value, unless all of them denote values. -/
theorem exists_first_eq_none {texts : List String} {text : String} (hmem : text ∈ texts)
    (h : Json.read? text = none) : ∃ before first after, texts = before ++ first :: after ∧
      (∀ text ∈ before, Json.read? text ≠ none) ∧ Json.read? first = none := by
  obtain ⟨first, hfirst⟩ : ∃ first, texts.find? (fun s => (Json.read? s).isNone) = some first :=
    Option.isSome_iff_exists.mp (List.find?_isSome.mpr ⟨text, hmem, by rw [h]; rfl⟩)
  obtain ⟨hnone, before, after, htexts, hbefore⟩ := List.find?_eq_some_iff_append.mp hfirst
  refine ⟨before, first, after, htexts, fun s hs => ?_, Option.isNone_iff_eq_none.mp hnone⟩
  exact Option.isSome_iff_ne_none.mp (by simpa using hbefore s hs)

namespace Options

variable {o o' : Options}

theorem needsInput_iff : o.needsInput = true ↔ o.slots.length < o.markers := by
  rw [needsInput, decide_eq_true_iff, markers, occurrences_marker]

/-- An evaluation that has its input depends on the expression and the texts. -/
theorem mapping_eq_mappingOf (h : o.HasInput) : o.mapping = mappingOf o.expression o.texts := by
  by_cases hneeds : o.slots.length < o.markers
  · obtain ⟨text, htext⟩ := Option.ne_none_iff_exists'.mp (h hneeds)
    rw [mapping, mappingOf, inputSlots, texts, if_pos (needsInput_iff.mpr hneeds), if_pos hneeds,
      htext]
    simp [List.mapM_append]
  · have hinput : ¬ o.needsInput = true := fun h => hneeds (needsInput_iff.mp h)
    rw [mapping, mappingOf, inputSlots, texts, if_neg hinput, if_neg hneeds]
    cases o.slots.mapM readSlot with
    | error e => rfl
    | ok slots =>
      simp only [bind, Except.bind]
      rw [List.append_nil]

/-- Evaluations that have their input agree when their expressions and texts do. -/
theorem outcome_eq_of_texts_eq (h : o.HasInput) (h' : o'.HasInput)
    (hexpression : o.expression = o'.expression) (htexts : o.texts = o'.texts)
    (hpretty : o.pretty = o'.pretty) (hsafe : o.safe = o'.safe) : o.outcome = o'.outcome := by
  rw [outcome, outcome, mapping_eq_mappingOf h, mapping_eq_mappingOf h', hexpression, htexts, hsafe,
    layout, layout, hpretty]

theorem length_texts (h : o.HasInput) :
    o.texts.length =
      if o.slots.length < o.markers then o.slots.length + 1 else o.slots.length := by
  by_cases hneeds : o.slots.length < o.markers
  · obtain ⟨text, htext⟩ := Option.ne_none_iff_exists'.mp (h hneeds)
    rw [texts, if_pos hneeds, if_pos hneeds, htext]
    simp
  · rw [texts, if_neg hneeds, if_neg hneeds]

/-! ### Faults -/

/-- A fault is the error of the mapping. -/
theorem SlotFault.mapping_eq_error {e : CommandError} (h : o.SlotFault e) :
    o.mapping = .error e := by
  cases h with
  | slot hslots hbefore htext =>
    rw [mapping, hslots, mapM_readSlot_eq_error hbefore htext]
    rfl
  | absent hslots hneeds hinput =>
    obtain ⟨slots, hread⟩ := exists_denotes_of_forall_ne_none hslots
    rw [mapping, mapM_readSlot_eq_ok hread, inputSlots, if_pos (needsInput_iff.mpr hneeds), hinput]
    rfl
  | @input text hslots hneeds hinput htext =>
    have htexts : o.texts = o.slots ++ text :: [] := by
      rw [texts, if_pos hneeds, hinput, Option.toList_some]
    have hhas : o.HasInput := fun _ => by simp [hinput]
    rw [mapping_eq_mappingOf hhas, mappingOf, htexts, mapM_readSlot_eq_error hslots htext]
    rfl
  | @count k hinput htexts hk hcount =>
    obtain ⟨slots, hread⟩ := exists_denotes_of_forall_ne_none htexts
    have hlength : slots.length = k := by rw [← hread.length_eq, length_texts hinput, hk]
    have hsplit : Template.split o.expression marker slots =
        .error (.segmentMismatch (o.markers + 1) k) := by
      rw [Template.split_eq_error toList_marker (by decide) (hlength ▸ hcount), hlength, markers]
    rw [mapping_eq_mappingOf hinput, mappingOf, mapM_readSlot_eq_ok hread]
    simp only [bind, Except.bind, hsplit, Except.mapError]

/-- The template that an expression and its texts fill is the one that is evaluated. -/
theorem Fills.mapping_eq {t : Template} (ht : o.Fills t) (h : o.HasInput) :
    o.mapping = t.evaluate.mapError .ofFailure := by
  have hsplit : Template.split o.expression marker t.slots = .ok t :=
    (Template.split_eq_ok_iff toList_marker (by decide)).mpr ⟨ht.segments, ht.free, rfl⟩
  rw [mapping_eq_mappingOf h, mappingOf, mapM_readSlot_eq_ok ht.slots]
  simp only [bind, Except.bind, hsplit, Except.mapError]

/-- Without a fault there is an input if one is needed, and the slots are filled. -/
theorem exists_fills (h : ∀ e, ¬ o.SlotFault e) : o.HasInput ∧ ∃ t, o.Fills t := by
  have hslots : ∀ text ∈ o.slots, Json.read? text ≠ none := by
    intro text hmem htext
    obtain ⟨before, first, after, hsplit, hbefore, hfirst⟩ := exists_first_eq_none hmem htext
    exact h _ (.slot hsplit hbefore hfirst)
  have hinput : o.HasInput := fun hneeds hnone => h _ (.absent hslots hneeds hnone)
  have htexts : ∀ text ∈ o.texts, Json.read? text ≠ none := by
    intro text hmem htext
    rw [texts] at hmem
    split at hmem
    · rename_i hneeds
      rcases List.mem_append.mp hmem with hmem | hmem
      · exact hslots text hmem htext
      · exact h _ (.input hslots hneeds (Option.mem_toList.mp hmem) htext)
    · exact hslots text hmem htext
  obtain ⟨slots, hread⟩ := exists_denotes_of_forall_ne_none htexts
  have hcount : slots.length = o.markers := by
    by_contra hne
    rw [← hread.length_eq, length_texts hinput] at hne
    exact h _ (.count hinput htexts rfl hne)
  obtain ⟨t, ht⟩ : ∃ t, Template.split o.expression marker slots = .ok t :=
    Template.exists_split_eq_ok toList_marker (by decide) hcount
  obtain ⟨hsegments, hfree, rfl⟩ := (Template.split_eq_ok_iff toList_marker (by decide)).mp ht
  exact ⟨hinput, t, hsegments, hfree, hread⟩

/-! ### The ways of giving the texts -/

/-- Where there are enough slot texts, the input is not looked at. -/
theorem outcome_with_input (h : o.markers ≤ o.slots.length) (input? : Option String) :
    ({ o with input? } : Options).outcome = o.outcome := by
  have hneeds : ¬ o.slots.length < o.markers := Nat.not_lt.mpr h
  have htexts : ({ o with input? } : Options).texts = o.texts := by
    rw [texts, texts, if_neg hneeds]
    exact if_neg hneeds
  exact outcome_eq_of_texts_eq (fun hlt => absurd hlt hneeds) (fun hlt => absurd hlt hneeds) rfl
    htexts rfl rfl

section Last

variable {expression : String} {texts : List String} {last : String} {pretty safe : Bool}

/-- The last text may be a slot text or the input. -/
theorem outcome_last_slot_eq
    (h : (texts ++ [last]).length = Text.places marker.toList expression.toList) :
    (⟨expression, texts ++ [last], none, pretty, safe⟩ : Options).outcome =
      (⟨expression, texts, some last, pretty, safe⟩ : Options).outcome := by
  have hfilled : ¬ (texts ++ [last]).length < Text.places marker.toList expression.toList :=
    Nat.not_lt.mpr h.ge
  have hneeds : texts.length < Text.places marker.toList expression.toList := by
    rw [← h]
    simp
  refine outcome_eq_of_texts_eq (fun hlt => absurd hlt hfilled) (fun _ => by simp) rfl ?_ rfl rfl
  rw [Options.texts, Options.texts]
  exact (if_neg hfilled).trans (if_pos hneeds).symm

end Last

/-- An evaluation that has its input does not depend on the standard input. -/
theorem response_of_hasInput (h : o.HasInput) (input? : Option String) :
    o.response input? = .ofOutcome o.outcome := by
  have hreads : (Invocation.evaluate o).readsInput = false := by
    rw [Invocation.readsInput]
    cases hinput : o.input? with
    | some text => rfl
    | none =>
      have hneeds : ¬ o.needsInput = true := fun hn => h (needsInput_iff.mp hn) hinput
      simpa using hneeds
  rw [response_eq, Invocation.respond, hreads]
  rfl

/-- An evaluation without an input that it needs takes the standard input for it. -/
theorem response_of_not_hasInput (h : ¬ o.HasInput) (input? : Option String) :
    o.response input? = .ofOutcome ({ o with input? } : Options).outcome := by
  rw [HasInput, Classical.not_imp, not_not] at h
  have hreads : (Invocation.evaluate o).readsInput = true := by
    rw [Invocation.readsInput, h.2, needsInput_iff.mpr h.1]
    rfl
  rw [response_eq, Invocation.respond, hreads]
  rfl

/-- At a terminal an evaluation has its own input only. -/
theorem response_none (o : Options) : o.response none = .ofOutcome o.outcome := by
  by_cases h : o.HasInput
  · exact response_of_hasInput h none
  · rw [response_of_not_hasInput h]
    rw [HasInput, Classical.not_imp, not_not] at h
    rw [← h.2]

end Options

/-- The ways of filling slots agree, and what is wrong with them is found in order.  Where there are
as many slot texts as places, the input is not looked at.  The last text may be a slot text, the
input, or what is read from the standard input.  Unless failures are allowed, the error is the first
fault of the texts, and without a fault the outcome is that of the template they fill. -/
theorem slot_texts_and_input_agree :
    (∀ (o : Options) (input? : Option String), o.markers ≤ o.slots.length →
      ({ o with input? } : Options).outcome = o.outcome) ∧
    (∀ (expression : String) (texts : List String) (last : String) (pretty safe : Bool),
      let filled : Options := ⟨expression, texts ++ [last], none, pretty, safe⟩
      let given : Options := ⟨expression, texts, some last, pretty, safe⟩
      let piped : Options := ⟨expression, texts, none, pretty, safe⟩
      filled.slots.length = filled.markers →
      filled.outcome = given.outcome ∧
      ∀ input input' : Option String, filled.response input = given.response input' ∧
        piped.response (some last) = given.response input') ∧
    ∀ o : Options, o.safe = false →
      (∀ e, o.SlotFault e → o.outcome = .error e) ∧
      ((∀ e, ¬ o.SlotFault e) → (∃ t, o.Fills t) ∧ ∀ t, o.Fills t →
        o.outcome =
          match t.evaluate with
          | .ok m => .ok (.success (o.layout.mappingText m))
          | .error f => .error (.ofFailure f)) := by
  refine ⟨fun o input? h => Options.outcome_with_input h input?, ?_, fun o hsafe => ⟨?_, ?_⟩⟩
  · intro expression texts last pretty safe filled given piped hlength
    have houtcome : filled.outcome = given.outcome := Options.outcome_last_slot_eq hlength
    have hneeds : piped.slots.length < piped.markers := by
      have hlt : texts.length < (texts ++ [last]).length := by simp
      exact hlt.trans_eq hlength
    have hfilled : filled.HasInput := fun hlt => absurd hlength (Nat.ne_of_lt hlt)
    have hgiven : given.HasInput := fun _ => Option.some_ne_none last
    have hpiped : ¬ piped.HasInput := fun h => h hneeds rfl
    refine ⟨houtcome, fun input input' => ⟨?_, ?_⟩⟩
    · rw [Options.response_of_hasInput hfilled, Options.response_of_hasInput hgiven, houtcome]
    · rw [Options.response_of_not_hasInput hpiped, Options.response_of_hasInput hgiven]
  · intro e he
    rw [Options.outcome, he.mapping_eq_error, hsafe]
    rfl
  · intro hnone
    obtain ⟨hinput, hfills⟩ := Options.exists_fills hnone
    refine ⟨hfills, fun t ht => ?_⟩
    rw [Options.outcome, ht.mapping_eq hinput, hsafe]
    cases t.evaluate <;> rfl

/-- One slot is filled by a slot text or by the input.  Where there is neither it is missed, also at
a terminal. -/
theorem one_slot_text_or_input :
    let o : Options := ⟨"\x7bit: it over $\x7b\x7d\x7d", ["[1]"], none, false, false⟩
    o.outcome = .ok (.success "\x7b\"1\":1\x7d") ∧
    ({ o with input? := some "?" } : Options).outcome = o.outcome ∧
    o.outcome = ({ o with slots := [], input? := some "[1]" } : Options).outcome ∧
    ({ o with slots := [] } : Options).outcome = .error .noInput ∧
    ({ o with slots := [] } : Options).response none =
      ⟨1, "", "No source provided. Use --input or pipe JSON to stdin.\n"⟩ := by
  intro o
  let t : Template := itemTemplate [.integer 1]
  let m : Mapping Value := Mapping.ofList [("1", .integer 1)]
  have hmarkers : o.markers = 1 := by decide
  have hfloat : (Value.array [.integer 1]).FloatFree :=
    Value.floatFree_array_iff.mpr (List.forall_mem_singleton.mpr (by rintro x ⟨⟩))
  have hprinted : Json.Layout.compact.text (.array [.integer 1]) = "[1]" := by decide
  have hread : Json.read? "[1]" = some (.array [.integer 1]) := by
    rw [← hprinted]
    exact Json.read?_written .compact hfloat (by decide)
  have hvalid : ∀ text ∈ o.slots, Json.read? text ≠ none := by
    intro text hmem
    rw [List.mem_singleton.mp hmem, hread]
    exact Option.some_ne_none _
  have hfault : ∀ e, ¬ o.SlotFault e := by
    rintro e (⟨hslots, -, hnone⟩ | ⟨-, hneeds, -⟩ | ⟨-, hneeds, -, -⟩ | ⟨-, -, hk, hcount⟩)
    · exact hvalid _ (hslots ▸ List.mem_append_right _ List.mem_cons_self) hnone
    · exact absurd hneeds (by decide)
    · exact absurd hneeds (by decide)
    · exact absurd (hk.trans (by decide)) hcount
  have htexts : o.texts = ["[1]"] := if_neg (by decide)
  have hslots : List.Forall₂ Denotes o.texts t.slots := by
    rw [htexts]
    exact .cons ⟨_, hread, rfl⟩ .nil
  have hfills : o.Fills t := ⟨by decide, by decide, hslots⟩
  have hevaluate : t.evaluate = .ok m := evaluate_itemTemplate (.cons ⟨rfl, rfl⟩ .nil)
  have htext : o.layout.mappingText m = "\x7b\"1\":1\x7d" := by decide
  have habsent : ({ o with slots := [] } : Options).SlotFault .noInput :=
    .absent (List.forall_mem_nil _) (hmarkers ▸ Nat.one_pos) rfl
  have hmissed := (slot_texts_and_input_agree.2.2 { o with slots := [] } rfl).1 _ habsent
  refine ⟨?_, slot_texts_and_input_agree.1 o (some "?") hmarkers.le,
    (slot_texts_and_input_agree.2.1 o.expression [] "[1]" false false hmarkers.symm).1,
    hmissed, by rw [Options.response_none, hmissed]; rfl⟩
  rw [((slot_texts_and_input_agree.2.2 o rfl).2 hfault).2 t hfills, hevaluate, ← htext]

end Comprehension.CommandLine
