import Comprehension.Proofs.CommandLine.Slots

/-!
# Splitting an expression undoes joining its segments

An expression is segments with the marker between them.  The marker cannot overlap itself, so
segments that do not contain it are found again whatever they begin and end with, and the number of
markers that decides whether an input is needed is the number of slots that the expression takes.

## Main results

* `exists_split_intercalate`: joined segments are split where they were joined.
* `length_of_intercalate_eq`: how many segments an expression has.
* `split_undoes_joining`: splitting and joining undo each other.
-/

namespace Comprehension.CommandLine

variable {segments : List String} {slots : List Slot} {text : String}

/-- Joined segments without the marker are split where they were joined. -/
theorem exists_split_intercalate (hlength : segments.length = slots.length + 1)
    (hfree : ∀ segment ∈ segments, ¬ marker.toList <:+: segment.toList) :
    ∃ t, Template.split (marker.intercalate segments) marker slots = .ok t ∧
      t.segments = segments ∧ t.slots = slots := by
  obtain ⟨t, ht⟩ := Template.exists_ofParts_eq_ok hlength
  obtain ⟨rfl, rfl⟩ := Template.ofParts_eq_ok_iff.mp ht
  exact ⟨t, (Template.split_eq_ok_iff toList_marker (by decide)).mpr ⟨rfl, hfree, rfl⟩, rfl, rfl⟩

/-- An expression is split when there is a slot for each of its markers. -/
theorem exists_split_eq_ok_iff :
    (∃ t, Template.split text marker slots = .ok t) ↔
      slots.length = Text.occurrences marker.toList text.toList := by
  rw [occurrences_marker]
  refine ⟨fun ⟨t, ht⟩ => ?_, Template.exists_split_eq_ok toList_marker (by decide)⟩
  by_contra hcount
  rw [Template.split_eq_error toList_marker (by decide) hcount] at ht
  exact absurd ht (by simp)

/-- An expression that is not split is refused with the numbers of its segments and of the slots. -/
theorem split_eq_error_iff {e : ParseError} :
    Template.split text marker slots = .error e ↔
      slots.length ≠ Text.occurrences marker.toList text.toList ∧
      e = .segmentMismatch (Text.occurrences marker.toList text.toList + 1) slots.length := by
  by_cases hcount : slots.length = Text.occurrences marker.toList text.toList
  · obtain ⟨t, ht⟩ := exists_split_eq_ok_iff.mpr hcount
    simp [ht, hcount]
  · have herror :=
      Template.split_eq_error toList_marker (by decide) (occurrences_marker text ▸ hcount)
    rw [← occurrences_marker] at herror
    rw [herror, Except.error.injEq, eq_comm, and_iff_right hcount]

/-- An expression has one segment more than markers, in whatever way its segments are given. -/
theorem length_of_intercalate_eq (hne : segments ≠ [])
    (hfree : ∀ segment ∈ segments, ¬ marker.toList <:+: segment.toList)
    (hjoin : marker.intercalate segments = text) :
    segments.length = Text.occurrences marker.toList text.toList + 1 := by
  -- Any slots will do: they only have to be as many as the joined segments take.
  let slots : List Slot := List.replicate (segments.length - 1) (.value .null)
  have hlength : segments.length = slots.length + 1 := by
    rw [List.length_replicate, Nat.sub_add_cancel (List.length_pos_iff.mpr hne)]
  obtain ⟨t, ht, -⟩ := exists_split_intercalate hlength hfree
  rw [hlength, exists_split_eq_ok_iff.mp ⟨t, hjoin ▸ ht⟩]

/-- Segments without the marker are found again when they are joined by it, one slot being placed
between each two.  An expression is split when the slots are as many as the markers that decide
whether an input is needed: its segments then give it when they are joined, and none contains the
marker.  Otherwise it is refused with the number of its segments and that of the slots. -/
theorem split_undoes_joining :
    (∀ (segments : List String) (slots : List Slot), segments.length = slots.length + 1 →
      (∀ segment ∈ segments, ¬ marker.toList <:+: segment.toList) →
      ∃ t, Template.split (marker.intercalate segments) marker slots = .ok t ∧
        t.segments = segments ∧ t.slots = slots) ∧
    ∀ (text : String) (slots : List Slot),
      let markers := Text.occurrences marker.toList text.toList
      (∀ o : Options, o.expression = text → (o.needsInput = true ↔ o.slots.length < markers)) ∧
      ((∃ t, Template.split text marker slots = .ok t) ↔ slots.length = markers) ∧
      (∀ t, Template.split text marker slots = .ok t →
        marker.intercalate t.segments = text ∧
        (∀ segment ∈ t.segments, ¬ marker.toList <:+: segment.toList) ∧ t.slots = slots) ∧
      (∀ e, Template.split text marker slots = .error e ↔
        slots.length ≠ markers ∧ e = .segmentMismatch (markers + 1) slots.length) ∧
      ∀ segments : List String, segments ≠ [] →
        (∀ segment ∈ segments, ¬ marker.toList <:+: segment.toList) →
        marker.intercalate segments = text → segments.length = markers + 1 := by
  refine ⟨fun segments slots => exists_split_intercalate, fun text slots => ?_⟩
  refine ⟨?_, exists_split_eq_ok_iff, fun t => ?_, fun e => split_eq_error_iff,
    fun segments => length_of_intercalate_eq⟩
  · rintro o rfl
    rw [Options.needsInput, decide_eq_true_iff]
  · exact (Template.split_eq_ok_iff toList_marker (by decide)).mp

/-- Segments may begin and end with pieces of the marker, and a piece of it is no marker. -/
theorem split_undoes_joining_of_pieces :
    let segments : List String := ["$", "\x7b\x7d$\x7b", "\x7d"]
    let slots : List Slot := [.value .null, .function .ok]
    (∃ t, Template.split "$$\x7b\x7d\x7b\x7d$\x7b$\x7b\x7d\x7d" marker slots = .ok t ∧
      t.segments = segments ∧ t.slots = slots) ∧
    Template.split "$\x7b" marker slots = .error (.segmentMismatch 1 2) := by
  intro segments slots
  have hfree : ∀ segment ∈ segments, ¬ marker.toList <:+: segment.toList := by decide
  exact ⟨split_undoes_joining.1 segments slots rfl hfree,
    ((split_undoes_joining.2 "$\x7b" slots).2.2.2.1 _).mpr ⟨by decide, rfl⟩⟩

end Comprehension.CommandLine
