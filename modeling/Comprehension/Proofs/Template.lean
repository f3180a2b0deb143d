import Comprehension.Template
import Comprehension.Proofs.Text.Marker

/-!
# Templates by their parts

A template is its segments and its slots.  A text whose segments are separated by a marker has the
segments that give the text when they are joined by the marker and do not contain it, if there is
a slot for each place of the marker.

## Main results

* `Template.ofParts_eq_ok_iff`: building a template from parts.
* `Template.split_eq_ok_iff`, `Template.exists_split_eq_ok`, `Template.split_eq_error`: cutting a
  text at a marker that does not overlap itself.
-/

namespace Comprehension.Template

/-- The template of parts is the one that has these parts. -/
theorem ofParts_eq_ok_iff {segments : List String} {slots : List Slot} {t : Template} :
    ofParts segments slots = .ok t ↔ t.segments = segments ∧ t.slots = slots := by
  constructor
  · intro h
    cases segments with
    | nil => exact absurd h (by simp [ofParts])
    | cons lead more =>
      rw [ofParts] at h
      split at h
      · rename_i hlength
        obtain rfl := Except.ok.inj h
        exact ⟨congrArg (lead :: ·) (List.map_snd_zip hlength.le), List.map_fst_zip hlength.ge⟩
      · exact absurd h (by simp)
  · rintro ⟨rfl, rfl⟩
    exact ofParts_segments_slots t

/-- Templates with the same segments and slots are the same. -/
theorem eq_of_parts {t u : Template} (hsegments : u.segments = t.segments)
    (hslots : u.slots = t.slots) : u = t := by
  have hparts := ofParts_segments_slots u
  rw [hsegments, hslots, ofParts_segments_slots] at hparts
  exact (Except.ok.inj hparts).symm

theorem exists_ofParts_eq_ok {segments : List String} {slots : List Slot}
    (h : segments.length = slots.length + 1) : ∃ t, ofParts segments slots = .ok t := by
  obtain ⟨lead, more, rfl⟩ := List.exists_cons_of_length_eq_add_one h
  rw [ofParts]
  exact ⟨_, if_pos (Nat.add_right_cancel h)⟩

/-- Parts that are not one more segment than slots are refused with their numbers. -/
theorem ofParts_eq_error {segments : List String} {slots : List Slot}
    (h : segments.length ≠ slots.length + 1) :
    ofParts segments slots = .error (.segmentMismatch segments.length slots.length) := by
  cases segments with
  | nil => rfl
  | cons lead more =>
    rw [List.length_cons, ne_eq, Nat.add_right_cancel_iff] at h
    rw [ofParts, if_neg h, List.length_cons]

section Split

variable {marker text : String} {slots : List Slot} {m : Char} {ms : List Char}

/-- A text is cut into the segments that give it when the marker joins them, and that do not
contain the marker. -/
theorem split_eq_ok_iff (hmarker : marker.toList = m :: ms) (hm : m ∉ ms) {t : Template} :
    split text marker slots = .ok t ↔
      marker.intercalate t.segments = text ∧
      (∀ segment ∈ t.segments, ¬ marker.toList <:+: segment.toList) ∧ t.slots = slots := by
  have hne : marker.toList ≠ [] := hmarker ▸ List.cons_ne_nil m ms
  rw [split, ofParts_eq_ok_iff, ← and_assoc, Text.split_eq_pieces hne]
  refine and_congr_left fun _ => ?_
  constructor
  · intro hsegments
    have htoList : t.segments.map String.toList = Text.pieces marker.toList 0 text.toList := by
      rw [hsegments, List.map_map]
      exact List.map_id'' (fun _ => String.toList_ofList) _
    refine ⟨String.toList_injective ?_, fun segment hsegment => ?_⟩
    · rw [String.toList_intercalate, htoList, Text.intercalate_pieces hne]
    · refine Text.not_infix_of_mem_pieces hne text.toList _ ?_
      rw [← htoList]
      exact List.mem_map_of_mem hsegment
  · rintro ⟨rfl, hfree⟩
    have hpieces : Text.pieces marker.toList 0 (marker.intercalate t.segments).toList =
        t.segments.map String.toList := by
      rw [String.toList_intercalate, hmarker]
      refine Text.pieces_intercalate hm (by simp [segments]) fun p hp => ?_
      obtain ⟨segment, hsegment, rfl⟩ := List.mem_map.mp hp
      exact hmarker ▸ hfree segment hsegment
    rw [hpieces, List.map_map]
    exact (List.map_id'' (fun _ => String.ofList_toList) _).symm

theorem length_split (hmarker : marker.toList = m :: ms) (hm : m ∉ ms) (text : String) :
    ((Text.split marker.toList text.toList).map String.ofList).length =
      Text.places marker.toList text.toList + 1 := by
  rw [List.length_map, Text.length_split (hmarker ▸ List.cons_ne_nil m ms), hmarker,
    Text.occurrences_eq_places hm]

/-- A text is cut when there is a slot for each place of the marker. -/
theorem exists_split_eq_ok (hmarker : marker.toList = m :: ms) (hm : m ∉ ms)
    (h : slots.length = Text.places marker.toList text.toList) :
    ∃ t, split text marker slots = .ok t := by
  refine exists_ofParts_eq_ok ?_
  rw [length_split hmarker hm, h]

/-- A text is refused with the numbers of its segments and of the slots when these do not fit. -/
theorem split_eq_error (hmarker : marker.toList = m :: ms) (hm : m ∉ ms)
    (h : slots.length ≠ Text.places marker.toList text.toList) :
    split text marker slots =
      .error (.segmentMismatch (Text.places marker.toList text.toList + 1) slots.length) := by
  have hlength := length_split hmarker hm text
  rw [split, ofParts_eq_error, hlength]
  rw [hlength]
  exact fun heq => h (Nat.add_right_cancel heq).symm

end Split

end Comprehension.Template
