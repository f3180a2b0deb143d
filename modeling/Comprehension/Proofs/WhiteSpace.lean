import Comprehension.Evaluation
import Comprehension.Proofs.Stage
import Comprehension.Proofs.Template

/-!
# White space and braces

Reading trims every text before it looks at it, so each of its steps does the same with a cursor and
with the cursor whose texts ahead have no white space at their ends.  Templates whose segments
differ in this white space, or in the braces they open with, are read alike up to the last word of
an error.  The text after the source matters only for whether it is empty but for closing braces and
white space.

## Main definitions

* `Cursor.bare`: a cursor without the white space around the texts ahead.
* `Padded`: a text with more white space at its ends.

## Main results

* `ofTemplate_congr_bare`: reading depends on the bare start of a template only.
* `Derivation.Derives.replace_closing`: the closing characters of a derived template can be
  replaced.
* `ofTemplate_ignores_padding`: white space and braces change neither plans nor errors.
-/

namespace Comprehension

open Text

/-! ### Cursors without white space ahead -/

namespace Cursor

/-- The cursor without the white space at the ends of the texts ahead. -/
def bare (c : Cursor) : Cursor :=
  ⟨c.text, c.ahead.map fun p => (p.1, String.ofList (trim p.2.toList))⟩

@[simp] theorem text_bare (c : Cursor) : c.bare.text = c.text := rfl

theorem takeSlot?_bare (c : Cursor) : c.bare.takeSlot? = c.takeSlot?.map (Prod.map id bare) := by
  obtain ⟨text, ahead⟩ := c
  cases ahead with
  | nil => rfl
  | cons p ahead =>
    simp only [bare, takeSlot?, List.map_cons, String.toList_ofList, trim_trim, Option.map_some,
      Prod.map, id]

theorem readOperand_bare (half : Half) (c : Cursor) :
    c.bare.readOperand half = Prod.map id bare <$> c.readOperand half := by
  rw [readOperand, readOperand, takeSlot?_bare, text_bare]
  by_cases htext : c.text = []
  · rw [if_pos htext, if_pos htext]
    cases c.takeSlot? with
    | none => rfl
    | some p =>
      simp only [Option.map_some, Prod.map, id]
      split <;> rfl
  · rw [if_neg htext, if_neg htext]
    cases readReference c.text <;> rfl

theorem readColon_bare (c : Cursor) : c.bare.readColon = bare <$> c.readColon := by
  rw [readColon, readColon]
  simp only [bare]
  split <;> rfl

theorem readBindings_bare (c : Cursor) :
    c.bare.readBindings = Prod.map id bare <$> c.readBindings := by
  rw [readBindings, readBindings]
  simp only [bare]
  cases readClause (trim c.text) <;> rfl

theorem readEntries_bare (iteration : Iteration) (c : Cursor) :
    c.bare.readEntries iteration = Prod.map id bare <$> c.readEntries iteration := by
  rw [readEntries, readEntries, takeSlot?_bare]
  cases c.takeSlot? with
  | none => rfl
  | some p =>
    simp only [Option.map_some, Prod.map, id]
    cases Entries.ofSlot iteration p.1 <;> rfl

theorem readEnd_bare (c : Cursor) : c.bare.readEnd = c.readEnd := by
  obtain ⟨text, ahead⟩ := c
  rw [readEnd, readEnd]
  simp only [bare]
  cases text.dropWhile isClosing <;> cases ahead <;> rfl

end Cursor

namespace Plan

variable (key value : Operand) (b : Bindings) (entries : Entries) (c : Cursor)

theorem fromEnding_bare :
    fromEnding key value b entries c.bare = fromEnding key value b entries c := by
  rw [fromEnding, fromEnding, c.readEnd_bare]

theorem fromSource_bare : fromSource key value b c.bare = fromSource key value b c := by
  rw [fromSource, fromSource, Cursor.readEntries_bare, bind_map_left]
  exact congrArg _ (funext fun p => fromEnding_bare key value b p.1 p.2)

theorem fromClause_bare : fromClause key value c.bare = fromClause key value c := by
  rw [fromClause, fromClause, Cursor.readBindings_bare, bind_map_left]
  exact congrArg _ (funext fun p => fromSource_bare key value p.1 p.2)

theorem fromValue_bare : fromValue key c.bare = fromValue key c := by
  rw [fromValue, fromValue, Cursor.readOperand_bare, bind_map_left]
  exact congrArg _ (funext fun p => fromClause_bare key p.1 p.2)

theorem fromColon_bare : fromColon key c.bare = fromColon key c := by
  rw [fromColon, fromColon, Cursor.readColon_bare, bind_map_left]
  exact congrArg _ (funext fun c => fromValue_bare key c)

end Plan

/-- Templates that start with the same bare cursor are read alike. -/
theorem ofTemplate_congr_bare {t u : Template} (h : (Cursor.start t).bare = (Cursor.start u).bare) :
    Plan.ofTemplate t = Plan.ofTemplate u := by
  have hbare (t : Template) : Plan.ofTemplate t =
      (Cursor.start t).bare.readOperand .key >>= fun p => Plan.fromColon p.1 p.2 := by
    rw [Plan.ofTemplate_eq_fromColon, Cursor.readOperand_bare, bind_map_left]
    exact congrArg _ (funext fun p => (Plan.fromColon_bare p.1 p.2).symm)
  rw [hbare t, hbare u, h]

/-! ### White space around segments, and braces -/

/-- A text with more white space at its ends. -/
def Padded (segment padded : String) : Prop :=
  ∃ u v, Blank u ∧ Blank v ∧ padded.toList = u ++ segment.toList ++ v

theorem Padded.trim_eq {segment padded : String} (h : Padded segment padded) :
    trim padded.toList = trim segment.toList := by
  obtain ⟨u, v, hu, hv, heq⟩ := h
  rw [heq, trim_append_right hv, trim_append_left hu]

/-- Texts with more white space at their ends behind the same slots are the same texts when they
are trimmed. -/
theorem map_trim_eq_of_padded {rest more : List (Slot × String)}
    (hslots : more.map Prod.fst = rest.map Prod.fst)
    (hpadded : List.Forall₂ Padded (rest.map Prod.snd) (more.map Prod.snd)) :
    more.map (fun p => (p.1, String.ofList (trim p.2.toList))) =
      rest.map fun p => (p.1, String.ofList (trim p.2.toList)) := by
  induction rest generalizing more with
  | nil => rw [List.map_eq_nil_iff.mp hslots]
  | cons p rest ih =>
    cases more with
    | nil => exact absurd hslots (by simp)
    | cons q more =>
      obtain ⟨hslot, hslots⟩ := List.cons.inj hslots
      cases hpadded with
      | cons htext hpadded =>
        rw [List.map_cons, List.map_cons, hslot, htext.trim_eq, ih hslots hpadded]

/-- Templates with the same slots whose segments differ in white space at their ends are read
alike. -/
theorem ofTemplate_of_padded {t u : Template} (hslots : u.slots = t.slots)
    (hpadded : List.Forall₂ Padded t.segments u.segments) :
    Plan.ofTemplate u = Plan.ofTemplate t := by
  obtain ⟨lead, rest⟩ := t
  obtain ⟨lead', more⟩ := u
  cases hpadded with
  | cons hlead hpadded =>
    refine ofTemplate_congr_bare ?_
    simp only [Cursor.start, Cursor.bare]
    rw [hlead.trim_eq, map_trim_eq_of_padded hslots hpadded]

/-- More braces in front of a text are stripped with those it starts with. -/
theorem stripRun_replicate_append (n : Nat) (cs : List Char) :
    stripRun '{' (List.replicate n '{' ++ cs) = stripRun '{' cs :=
  List.dropWhile_append_of_pos fun c hc => by simp [List.eq_of_mem_replicate hc]

/-- Templates that open with more braces and other white space are read alike. -/
theorem ofTemplate_of_braces (t : Template) {w₁ w₂ : List Char} (hw₁ : Blank w₁) (hw₂ : Blank w₂)
    (n : Nat) :
    Plan.ofTemplate { t with
      lead := String.ofList (w₁ ++ List.replicate n '{' ++ trim t.lead.toList ++ w₂) } =
      Plan.ofTemplate t := by
  refine ofTemplate_congr_bare ?_
  have htrim : trim (List.replicate n '{' ++ trim t.lead.toList) =
      List.replicate n '{' ++ trim t.lead.toList := by
    cases n with
    | zero => exact trim_trim _
    | succ n =>
      rw [(Cursor.trimmed_braces _).trim_append (by simp), trimEnd_eq_self (trimmed_trim _).last]
  simp only [Cursor.start, Cursor.bare]
  rw [String.toList_ofList, trim_append_right hw₂, List.append_assoc, trim_append_left hw₁, htrim,
    stripRun_replicate_append]

/-! ### The text after the source -/

/-- A template whose last segment is replaced has the stream with that text at its end. -/
theorem stream_of_dropLast {t u : Template} {s : List Symbol} {x : Slot} {cs : List Char}
    {close : String} (ht : t.stream = s ++ [.slot x] ++ symbols cs) (hslots : u.slots = t.slots)
    (hsegments : u.segments = t.segments.dropLast ++ [close]) :
    u.stream = s ++ [.slot x] ++ symbols close.toList := by
  rw [List.append_assoc, List.singleton_append] at ht ⊢
  have hlead : t.lead.toList = leadingText s := by
    rw [← leadingText_stream t, ht, leadingText_append_slot]
  have hrest : t.rest = slotsAhead s ++ [(x, String.ofList cs)] := by
    rw [← slotsAhead_stream t, ht, slotsAhead_append_slot, leadingText_symbols, slotsAhead_symbols]
  have hlast : t.segments = (t.lead :: (slotsAhead s).map Prod.snd) ++ [String.ofList cs] := by
    rw [Template.segments, hrest, List.map_append]
    rfl
  have hu : u = .ofStream (s ++ .slot x :: symbols close.toList) := by
    refine Template.eq_of_parts ?_ ?_
    · rw [hsegments, hlast, List.dropLast_concat, Template.ofStream, Template.segments,
        leadingText_append_slot, ← hlead, slotsAhead_append_slot, leadingText_symbols,
        slotsAhead_symbols, List.map_append, String.ofList_toList, String.ofList_toList]
      rfl
    · rw [hslots, Template.ofStream, Template.slots, Template.slots, hrest, slotsAhead_append_slot,
        slotsAhead_symbols, List.map_append, List.map_append]
      rfl
  rw [hu, stream_ofStream]

/-- The text after the source of a derived template is replaced by other closing characters. -/
theorem Derivation.Derives.replace_closing {t u : Template} {d : Derivation} {close : String}
    (h : d.Derives t.stream) (hclose : ∀ c ∈ close.toList, c = '}' ∨ isBlank c = true)
    (hslots : u.slots = t.slots) (hsegments : u.segments = t.segments.dropLast ++ [close]) :
    Derivation.Derives { d with closing := close.toList } u.stream := by
  generalize ht : t.stream = stream at h
  cases h with
  | intro hw₁ hw₂ hw₃ hw₄ hw₅ hw₆ hkey hvalue hsep hclause =>
    rw [stream_of_dropLast ht hslots hsegments]
    exact .intro (d := { d with closing := close.toList }) hw₁ hw₂ hw₃ hw₄ hw₅ hw₆ hkey hvalue hsep
      hclause hclose

/-- A template that is read gives the same plan with other closing characters after its source. -/
theorem ofTemplate_of_closing {t u : Template} {p : Plan} {close : String}
    (hp : Plan.ofTemplate t = .ok p) (hclose : ∀ c ∈ close.toList, c = '}' ∨ isBlank c = true)
    (hslots : u.slots = t.slots) (hsegments : u.segments = t.segments.dropLast ++ [close]) :
    Plan.ofTemplate u = .ok p := by
  obtain ⟨d, hread, -⟩ := ofTemplate_eq_ok_iff_readsAs.mp hp
  obtain ⟨opening, closing, hderives⟩ := exists_derives_of_readsAs hread
  -- The checks of reading do not look at the closing characters of a derivation.
  rw [ofTemplate_eq_plan (hderives.replace_closing hclose hslots hsegments), ← hp,
    ofTemplate_eq_plan hderives]
  rfl

/-- White space and braces do not matter.  A template, well-formed or not, is read to the same plan
or refused with the same error when white space is added at the ends of its segments, and when its
first segment is trimmed and put behind any number of braces and between any white space.  A
template that is read gives the same plan and the same result when its last segment is replaced by
closing braces and white space. -/
theorem ofTemplate_ignores_padding :
    (∀ t u : Template, u.slots = t.slots → List.Forall₂ Padded t.segments u.segments →
      Plan.ofTemplate u = Plan.ofTemplate t) ∧
    (∀ (t : Template) (w₁ w₂ : List Char) (n : Nat), Blank w₁ → Blank w₂ →
      Plan.ofTemplate { t with
        lead := String.ofList (w₁ ++ List.replicate n '{' ++ trim t.lead.toList ++ w₂) } =
        Plan.ofTemplate t) ∧
    ∀ (t u : Template) (p : Plan) (close : String), Plan.ofTemplate t = .ok p →
      (∀ c ∈ close.toList, c = '}' ∨ isBlank c = true) → u.slots = t.slots →
      u.segments = t.segments.dropLast ++ [close] →
      Plan.ofTemplate u = .ok p ∧ u.evaluate = t.evaluate := by
  refine ⟨fun t u => ofTemplate_of_padded,
    fun t w₁ w₂ n hw₁ hw₂ => ofTemplate_of_braces t hw₁ hw₂ n,
    fun t u p close hp hclose hslots hsegments => ?_⟩
  have hu := ofTemplate_of_closing hp hclose hslots hsegments
  refine ⟨hu, ?_⟩
  rw [Template.evaluate, Template.evaluate, Template.run, Template.run, hp, hu]

/-- Spaces and line breaks around the segments, an em space behind three braces, and two braces
after the source. -/
theorem ofTemplate_ignores_padding_of_slots :
    let key : Slot := .function .ok
    let value : Slot := .value .null
    let source : Slot := .value (.array [.string "a"])
    let t : Template := ⟨"", [(key, ":"), (value, "over"), (source, "")]⟩
    let padded : Template := ⟨"\n", [(key, " : "), (value, "\nover"), (source, " ")]⟩
    let braced : Template := { t with lead := "\x7b\x7b\x7b\u2003" }
    let closed : Template := ⟨"", [(key, ":"), (value, "over"), (source, "\x7d \x7d")]⟩
    let p : Plan := ⟨.function .ok, .constant .null, .implicit, .items [.string "a"]⟩
    Plan.ofTemplate padded = .ok p ∧ Plan.ofTemplate braced = .ok p ∧
      Plan.ofTemplate closed = .ok p ∧ closed.evaluate = t.evaluate := by
  intro key value source t padded braced closed p
  have hblank : Blank [' '] ∧ Blank ['\n'] := by decide
  have hsegments : List.Forall₂ Padded t.segments padded.segments :=
    .cons ⟨['\n'], [], hblank.2, blank_nil, by decide⟩
      (.cons ⟨[' '], [' '], hblank.1, hblank.1, by decide⟩
        (.cons ⟨['\n'], [], hblank.2, blank_nil, by decide⟩
          (.cons ⟨[' '], [], hblank.1, blank_nil, by decide⟩ .nil)))
  have hclose : ∀ c ∈ "\x7d \x7d".toList, c = '}' ∨ isBlank c = true :=
    fun c hc => Cursor.isClosing_iff.mp (List.all_eq_true.mp (by decide) c hc)
  have hp : Plan.ofTemplate t = .ok p := rfl
  obtain ⟨hpadding, hbraces, hclosing⟩ := ofTemplate_ignores_padding
  exact ⟨(hpadding t padded rfl hsegments).trans hp,
    (hbraces t [] ['\u2003'] 3 blank_nil (by decide)).trans hp,
    hclosing t closed p "\x7d \x7d" hp hclose rfl rfl⟩

end Comprehension
