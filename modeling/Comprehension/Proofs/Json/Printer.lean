import Comprehension.Json.Printer
import Comprehension.Proofs.Value.Canonical

/-!
# Written values

The text of a value is that of its canonical form: the printer replaces, drops and sorts exactly as
the canonical form does.  A mapping is written as the object of its pairs.

## Main results

* `Json.Layout.written_array`, `Json.Layout.written_object`: the written parts.
* `Json.Layout.written_canon`: a value and its canonical form are written alike.
* `Json.Layout.mappingText_eq_text`: a mapping and its object are written alike.
-/

namespace Comprehension.Json.Layout

open Value (definedMembers)

variable (layout : Layout) (depth : Nat)

theorem writtenItems_eq_map (items : List Value) :
    layout.writtenItems depth items = items.map (layout.written depth) := by
  induction items with
  | nil => rw [writtenItems, List.map_nil]
  | cons v vs ih => rw [writtenItems, ih, List.map_cons]

theorem writtenMembers_eq_map (members : List (String × Value)) :
    layout.writtenMembers depth members =
      (definedMembers members).map fun m => (m.1, layout.written depth m.2) := by
  induction members with
  | nil => rw [writtenMembers, definedMembers, List.filter_nil, List.map_nil]
  | cons m ms ih =>
    rw [writtenMembers, definedMembers, List.filter_cons, ih]
    by_cases hu : m.2.isUndefined = true
    · simp [hu, definedMembers]
    · simp [hu, definedMembers]

theorem written_array (items : List Value) :
    layout.written depth (.array items) =
      layout.bracketed depth '[' ']' (items.map (layout.written (depth + 1))) := by
  rw [written, writtenItems_eq_map]

/-- An object is written with its defined members in ascending order. -/
theorem written_object (members : List (String × Value)) :
    layout.written depth (.object members) =
      layout.writtenObject depth
        ((Mapping.ofList (definedMembers members)).map (layout.written (depth + 1))).entries := by
  rw [written, writtenMembers_eq_map, Mapping.ofList_map]

/-- A value is written like its canonical form. -/
theorem written_canon (v : Value) : layout.written depth v.canon = layout.written depth v := by
  induction v using Value.induction generalizing depth with
  | undefined => rw [Value.canon, written, written]
  | array items ih =>
    rw [Value.canon_array, written_array, written_array, List.map_map]
    refine congrArg _ (List.map_congr_left fun v hv => ?_)
    exact ih v hv (depth + 1)
  | object members ih =>
    rw [Value.canon_object, written_object, written_object, Value.definedMembers_map_canon,
      Mapping.ofList_entries, Mapping.entries_map, Mapping.entries_map, Mapping.entries_map,
      List.map_map]
    refine congrArg _ (List.map_congr_left fun e he => ?_)
    have hmem := (Value.mem_definedMembers.mp (Mapping.mem_of_mem_ofList he)).1
    exact congrArg (Prod.mk e.1) (ih e hmem (depth + 1))
  | _ => rfl

/-- A mapping is written like the object of its pairs. -/
theorem mappingText_eq_text (m : Mapping Value) :
    layout.mappingText m = layout.text (Value.ofMapping m) := by
  rw [mappingText, text, Value.ofMapping, written_object, Mapping.entries_map,
    Value.entries_ofList_definedMembers, writtenMembers_eq_map]

end Comprehension.Json.Layout
