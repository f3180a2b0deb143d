import Comprehension.Evaluation
import Comprehension.Proofs.Template
import Mathlib.Data.List.ModifyLast

/-!
# Templates that are built step by step

A template is built from a leading text by adding texts and slots at its end.  Text always goes to
the last segment, which a slot closes, so the segments are the runs of texts between slots, joined.
The template therefore records everything about the additions but how its segments were cut into
texts, and nothing else: additions build the same template exactly when they differ only in that.

## Main definitions

* `Addition`, `Template.build`: additions, and the template that they build.
* `textRuns`, `addedSlots`: what additions say about segments and slots.
* `Recut`: additions that differ only in how the text between slots is cut into pieces.

## Main results

* `Template.segments_addText`, `Template.segments_addSlot`: what one addition does to the segments.
* `Template.build_eq_build_iff`: the additions that build the same template.
* `Template.builds_what_is_added`: the segments and slots of a built template, and the parts that
  make a template.
-/

namespace Comprehension

/-! ### One addition -/

namespace Template

theorem extendLast_concat (text : String) (ps : List (Slot × String)) (x : Slot)
    (segment : String) :
    extendLast text (ps ++ [(x, segment)]) = ps ++ [(x, segment ++ text)] := by
  induction ps with
  | nil => rfl
  | cons p ps ih =>
    have hne : ps ++ [(x, segment)] ≠ [] := by simp
    obtain ⟨q, qs, hq⟩ := List.exists_cons_of_ne_nil hne
    rw [List.cons_append, List.cons_append, ← ih, hq]
    rfl

/-- Text is added to the last segment. -/
theorem segments_addText (t : Template) (text : String) :
    (t.addText text).segments = t.segments.modifyLast (· ++ text) := by
  obtain ⟨lead, rest⟩ := t
  rcases List.eq_nil_or_concat rest with rfl | ⟨ps, ⟨x, segment⟩, rfl⟩
  · rfl
  · have hsegments (last : String) : segments ⟨lead, ps ++ [(x, last)]⟩ =
        (lead :: ps.map Prod.snd) ++ [last] := by
      rw [segments, List.map_append, List.map_singleton, List.cons_append]
    rw [List.concat_eq_append, addText, if_neg (by simp), extendLast_concat, hsegments, hsegments,
      List.modifyLast_concat]

theorem slots_addText (t : Template) (text : String) : (t.addText text).slots = t.slots := by
  obtain ⟨lead, rest⟩ := t
  rcases List.eq_nil_or_concat rest with rfl | ⟨ps, ⟨x, segment⟩, rfl⟩
  · rfl
  · rw [List.concat_eq_append, addText, if_neg (by simp), extendLast_concat]
    simp only [slots, List.map_append, List.map_singleton]

/-- A slot closes the last segment and starts an empty one. -/
theorem segments_addSlot (t : Template) (x : Slot) :
    (t.addSlot x).segments = t.segments ++ [""] := by
  rw [addSlot, segments, segments, List.map_append, List.map_singleton, List.cons_append]

theorem slots_addSlot (t : Template) (x : Slot) : (t.addSlot x).slots = t.slots ++ [x] := by
  rw [addSlot, slots, slots, List.map_append, List.map_singleton]

end Template

/-! ### Additions in turn -/

/-- What is added at the end of a template: text, or a slot. -/
inductive Addition
  | text (text : String)
  | slot (x : Slot)

namespace Addition

def isSlot : Addition → Bool
  | text _ => false
  | slot _ => true

/-- The text that is added.  A slot adds none. -/
def written : Addition → String
  | text u => u
  | slot _ => ""

def slot? : Addition → Option Slot
  | text _ => none
  | slot x => some x

/-- A template with one addition at its end. -/
def addTo (t : Template) : Addition → Template
  | text u => t.addText u
  | slot x => t.addSlot x

end Addition

/-- The template that additions make of a leading text. -/
def Template.build (lead : String) (additions : List Addition) : Template :=
  additions.foldl Addition.addTo (.ofText lead)

/-- The texts between slots, those of each run joined. -/
def textRuns (additions : List Addition) : List String :=
  (additions.splitOnP Addition.isSlot).map fun run => String.join (run.map Addition.written)

/-- The slots among additions, in their order. -/
def addedSlots (additions : List Addition) : List Slot := additions.filterMap Addition.slot?

theorem textRuns_text_cons (u : String) (additions : List Addition) :
    textRuns (.text u :: additions) = (textRuns additions).modifyHead (u ++ ·) := by
  rw [textRuns, textRuns, List.splitOnP_cons_eq_if_modifyHead, if_neg (by simp [Addition.isSlot])]
  cases additions.splitOnP Addition.isSlot with
  | nil => rfl
  | cons run runs =>
    simp only [List.modifyHead_cons, List.map_cons, String.join_cons, Addition.written]

theorem textRuns_slot_cons (x : Slot) (additions : List Addition) :
    textRuns (.slot x :: additions) = "" :: textRuns additions := by
  rw [textRuns, textRuns, List.splitOnP_cons_eq_if_modifyHead]
  rfl

theorem textRuns_empty_cons (additions : List Addition) :
    textRuns (.text "" :: additions) = textRuns additions := by
  rw [textRuns_text_cons]
  cases textRuns additions with
  | nil => rfl
  | cons run runs => exact congrArg (· :: runs) String.empty_append

theorem textRuns_text_text_cons (u v : String) (additions : List Addition) :
    textRuns (.text u :: .text v :: additions) = textRuns (.text (u ++ v) :: additions) := by
  simp only [textRuns_text_cons]
  cases textRuns additions with
  | nil => rfl
  | cons run runs => exact congrArg (· :: runs) String.append_assoc.symm

namespace Template

/-- Additions to a template continue its last segment and then bring their own. -/
theorem segments_foldl_addTo {t : Template} {before : List String} {last : String}
    (h : t.segments = before ++ [last]) (additions : List Addition) :
    (additions.foldl Addition.addTo t).segments =
      before ++ textRuns (.text last :: additions) := by
  induction additions generalizing t before last with
  | nil =>
    rw [List.foldl_nil, h, textRuns_text_cons]
    exact congrArg (before ++ [·]) String.append_empty.symm
  | cons a additions ih =>
    cases a with
    | text text =>
      have hnext : (t.addText text).segments = before ++ [last ++ text] := by
        rw [segments_addText, h, List.modifyLast_concat]
      rw [List.foldl_cons, Addition.addTo, ih hnext, textRuns_text_text_cons]
    | slot x =>
      have hnext : (t.addSlot x).segments = (before ++ [last]) ++ [""] := by
        rw [segments_addSlot, h]
      rw [List.foldl_cons, Addition.addTo, ih hnext, textRuns_empty_cons, textRuns_text_cons,
        textRuns_slot_cons, List.modifyHead_cons, String.append_empty, List.append_assoc,
        List.singleton_append]

theorem slots_foldl_addTo (t : Template) (additions : List Addition) :
    (additions.foldl Addition.addTo t).slots = t.slots ++ addedSlots additions := by
  induction additions generalizing t with
  | nil => exact (List.append_nil _).symm
  | cons a additions ih =>
    cases a with
    | text text => rw [List.foldl_cons, ih, Addition.addTo, slots_addText]; rfl
    | slot x =>
      rw [List.foldl_cons, ih, Addition.addTo, slots_addSlot, List.append_assoc]
      rfl

/-- The segments are the runs of texts between slots, and the leading text starts the first run. -/
theorem segments_build (lead : String) (additions : List Addition) :
    (build lead additions).segments = textRuns (.text lead :: additions) := by
  have hlead : (ofText lead).segments = [] ++ [lead] := rfl
  exact segments_foldl_addTo hlead additions

theorem slots_build (lead : String) (additions : List Addition) :
    (build lead additions).slots = addedSlots additions :=
  slots_foldl_addTo (ofText lead) additions

end Template

/-! ### Cutting texts differently -/

/-- Additions that differ only in how the text between slots is cut into pieces: empty pieces may
be left out, and neighbouring pieces may be joined. -/
inductive Recut : List Addition → List Addition → Prop
  | refl (as : List Addition) : Recut as as
  | symm {as bs : List Addition} : Recut as bs → Recut bs as
  | trans {as bs cs : List Addition} : Recut as bs → Recut bs cs → Recut as cs
  | cons (a : Addition) {as bs : List Addition} : Recut as bs → Recut (a :: as) (a :: bs)
  | empty (as : List Addition) : Recut (.text "" :: as) as
  | join (u v : String) (as : List Addition) :
      Recut (.text u :: .text v :: as) (.text (u ++ v) :: as)

namespace Recut

variable {as bs : List Addition}

theorem append_left (h : Recut as bs) (before : List Addition) :
    Recut (before ++ as) (before ++ bs) := by
  induction before with
  | nil => exact h
  | cons a before ih => exact .cons a ih

theorem addedSlots_eq (h : Recut as bs) : addedSlots as = addedSlots bs := by
  induction h with
  | symm _ ih => exact ih.symm
  | trans _ _ ih₁ ih₂ => exact ih₁.trans ih₂
  | cons a _ ih =>
    rw [addedSlots, List.filterMap_cons, ← addedSlots, ih]
    rfl
  | _ => rfl

theorem textRuns_eq (h : Recut as bs) : textRuns as = textRuns bs := by
  induction h with
  | refl as => rfl
  | symm _ ih => exact ih.symm
  | trans _ _ ih₁ ih₂ => exact ih₁.trans ih₂
  | cons a _ ih =>
    cases a with
    | text text => rw [textRuns_text_cons, textRuns_text_cons, ih]
    | slot x => rw [textRuns_slot_cons, textRuns_slot_cons, ih]
  | empty as => exact textRuns_empty_cons as
  | join u v as => exact textRuns_text_text_cons u v as

end Recut

namespace Template

/-- The additions that give a template with one text for each segment. -/
def additions (t : Template) : List Addition :=
  .text t.lead :: t.rest.flatMap fun p => [.slot p.1, .text p.2]

/-- One more addition is an addition after those of the template, up to the cuts of its text. -/
theorem recut_additions_addTo (t : Template) (a : Addition) (as : List Addition) :
    Recut (t.additions ++ a :: as) ((a.addTo t).additions ++ as) := by
  cases a with
  | slot x =>
    have happend : (t.addSlot x).additions ++ as =
        t.additions ++ .slot x :: .text "" :: as := by
      simp [additions, addSlot]
    rw [Addition.addTo, happend]
    exact ((Recut.empty as).symm.cons (.slot x)).append_left _
  | text text =>
    -- The last addition of a template is the text of its last segment.
    have hlast : ∃ before last, t.additions = before ++ [.text last] ∧
        (t.addText text).additions = before ++ [.text (last ++ text)] := by
      obtain ⟨lead, rest⟩ := t
      rcases List.eq_nil_or_concat rest with rfl | ⟨ps, ⟨x, segment⟩, rfl⟩
      · exact ⟨[], lead, rfl, rfl⟩
      · refine ⟨additions ⟨lead, ps⟩ ++ [.slot x], segment, ?_, ?_⟩
        · simp [additions]
        · rw [List.concat_eq_append, addText, if_neg (by simp), extendLast_concat]
          simp [additions]
    obtain ⟨before, last, hbefore, hafter⟩ := hlast
    rw [Addition.addTo, hbefore, hafter, List.append_assoc, List.append_assoc]
    exact (Recut.join last text as).append_left before

theorem recut_additions_foldl (t : Template) (as : List Addition) :
    Recut (t.additions ++ as) (as.foldl Addition.addTo t).additions := by
  induction as generalizing t with
  | nil => rw [List.append_nil]; exact .refl _
  | cons a as ih => exact (recut_additions_addTo t a as).trans (ih (a.addTo t))

/-- Additions build the same template exactly when they differ only in how the text between slots
is cut into pieces. -/
theorem build_eq_build_iff {lead lead' : String} {as bs : List Addition} :
    build lead as = build lead' bs ↔ Recut (.text lead :: as) (.text lead' :: bs) := by
  constructor
  · intro h
    have has : Recut (.text lead :: as) (build lead as).additions :=
      recut_additions_foldl (ofText lead) as
    have hbs : Recut (.text lead' :: bs) (build lead' bs).additions :=
      recut_additions_foldl (ofText lead') bs
    exact has.trans (h ▸ hbs.symm)
  · intro h
    refine eq_of_parts ?_ ?_
    · rw [segments_build, segments_build, h.textRuns_eq]
    · rw [slots_build, slots_build]
      exact h.addedSlots_eq

/-- A template has the segments and the slots that were added, at every step one more segment than
slots, and is the template of these parts.  How the text between slots was cut makes no difference,
neither to the template nor to what is read from it and what it evaluates to, and every other
difference does.  Parts, given or cut from a text, make a template exactly when there is one more
segment than slots. -/
theorem builds_what_is_added :
    (∀ (lead : String) (additions : List Addition),
      (∀ n, (build lead (additions.take n)).segments.length =
        (build lead (additions.take n)).slots.length + 1) ∧
      (build lead additions).slots = addedSlots additions ∧
      (build lead additions).segments = textRuns (.text lead :: additions) ∧
      ofParts (textRuns (.text lead :: additions)) (addedSlots additions) =
        .ok (build lead additions)) ∧
    (∀ (lead lead' : String) (as bs : List Addition),
      (build lead as = build lead' bs ↔ Recut (.text lead :: as) (.text lead' :: bs)) ∧
      (Recut (.text lead :: as) (.text lead' :: bs) →
        Plan.ofTemplate (build lead as) = Plan.ofTemplate (build lead' bs) ∧
        (build lead as).evaluate = (build lead' bs).evaluate)) ∧
    (∀ (segments : List String) (slots : List Slot),
      (∀ t, ofParts segments slots = .ok t ↔
        segments.length = slots.length + 1 ∧ t.segments = segments ∧ t.slots = slots) ∧
      ((∃ t, ofParts segments slots = .ok t) ↔ segments.length = slots.length + 1)) ∧
    ∀ (text marker : String) (slots : List Slot),
      (∀ t, split text marker slots = .ok t ↔
        (Text.split marker.toList text.toList).length = slots.length + 1 ∧
        t.segments = (Text.split marker.toList text.toList).map String.ofList ∧
        t.slots = slots) ∧
      ((∃ t, split text marker slots = .ok t) ↔
        (Text.split marker.toList text.toList).length = slots.length + 1) := by
  have hparts (segments : List String) (slots : List Slot) :
      (∀ t, ofParts segments slots = .ok t ↔
        segments.length = slots.length + 1 ∧ t.segments = segments ∧ t.slots = slots) ∧
      ((∃ t, ofParts segments slots = .ok t) ↔ segments.length = slots.length + 1) := by
    have hlength {t : Template} (h : ofParts segments slots = .ok t) :
        segments.length = slots.length + 1 := by
      obtain ⟨rfl, rfl⟩ := ofParts_eq_ok_iff.mp h
      exact length_segments t
    exact ⟨fun t => ⟨fun h => ⟨hlength h, ofParts_eq_ok_iff.mp h⟩,
      fun h => ofParts_eq_ok_iff.mpr h.2⟩, fun ⟨_, h⟩ => hlength h, exists_ofParts_eq_ok⟩
  refine ⟨fun lead additions => ⟨fun n => length_segments _, slots_build lead additions,
    segments_build lead additions, ?_⟩, fun lead lead' as bs => ⟨build_eq_build_iff, fun h => ?_⟩,
    hparts, fun text marker slots => ?_⟩
  · rw [ofParts_eq_ok_iff]
    exact ⟨segments_build lead additions, slots_build lead additions⟩
  · rw [build_eq_build_iff.mpr h]
    exact ⟨rfl, rfl⟩
  · have h := hparts ((Text.split marker.toList text.toList).map String.ofList) slots
    rwa [List.length_map] at h

/-- An empty text and the cut of `over` into two make no difference. -/
theorem builds_what_is_added_of_recut :
    let source : Addition := .slot (.value (.array []))
    let as : List Addition := [.text "", .text "it ov", .text "er", source]
    let bs : List Addition := [.text "it over", source]
    Recut (.text "\x7bit: " :: as) (.text "\x7bit: " :: bs) ∧
      Plan.ofTemplate (build "\x7bit: " as) = Plan.ofTemplate (build "\x7bit: " bs) ∧
      (build "\x7bit: " as).segments = ["\x7bit: it over", ""] := by
  intro source as bs
  have hcut : Recut (.text "\x7bit: " :: as) (.text "\x7bit: " :: bs) :=
    .cons _ ((Recut.empty _).trans (.join "it ov" "er" [source]))
  obtain ⟨hbuild, hcuts, -⟩ := builds_what_is_added
  exact ⟨hcut, ((hcuts _ _ as bs).2 hcut).1, (hbuild _ as).2.2.1.trans (by decide)⟩

end Template

end Comprehension
