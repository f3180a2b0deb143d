import Comprehension.ParseError
import Comprehension.Text.Marker
import Comprehension.Value.Basic

/-!
# Templates

A template is a leading text followed by slots, each with the text after it.  Its segments are the
texts, one more than its slots.  A template is built step by step, from parts, or by cutting a text
at a marker.
-/

namespace Comprehension

/-- A part of a comprehension that is not text: a value, or a function of the entry, which may
reject it with a message. -/
inductive Slot
  | value (v : Value)
  | function (f : Value → Except String Value)

namespace Slot

def kind : Slot → SlotKind
  | value v => .value v.kind
  | function _ => .function

/-- The value of a slot that is not a function. -/
def value? : Slot → Option Value
  | value v => some v
  | function _ => none

/-- Whether a slot is a null or undefined value. -/
def isNullish : Slot → Bool
  | value v => v.isNullish
  | function _ => false

end Slot

/-- Text with slots in it. -/
structure Template where
  lead : String
  rest : List (Slot × String)

namespace Template

/-- The texts before, between and after the slots. -/
def segments (t : Template) : List String := t.lead :: t.rest.map Prod.snd

def slots (t : Template) : List Slot := t.rest.map Prod.fst

/-- The template without slots. -/
def ofText (text : String) : Template := ⟨text, []⟩

/-- Texts after slots with more text after the last. -/
def extendLast (text : String) : List (Slot × String) → List (Slot × String)
  | [] => []
  | [(s, segment)] => [(s, segment ++ text)]
  | p :: ps => p :: extendLast text ps

/-- The template with more text at its end. -/
def addText (t : Template) (text : String) : Template :=
  if t.rest.isEmpty then ⟨t.lead ++ text, []⟩ else ⟨t.lead, extendLast text t.rest⟩

/-- The template with one more slot at its end. -/
def addSlot (t : Template) (s : Slot) : Template := ⟨t.lead, t.rest ++ [(s, "")]⟩

/-- The template of given segments and slots. -/
def ofParts (segments : List String) (slots : List Slot) : Except ParseError Template :=
  match segments with
  | [] => .error (.segmentMismatch 0 slots.length)
  | lead :: more =>
    if more.length = slots.length then .ok ⟨lead, slots.zip more⟩
    else .error (.segmentMismatch (more.length + 1) slots.length)

/-- The template of a text whose segments are separated by a marker. -/
def split (text marker : String) (slots : List Slot) : Except ParseError Template :=
  ofParts ((Text.split marker.toList text.toList).map String.ofList) slots

/-- A template has one more segment than slots. -/
theorem length_segments (t : Template) : t.segments.length = t.slots.length + 1 := by
  simp [segments, slots]

/-- The parts of a template build it again. -/
theorem ofParts_segments_slots (t : Template) : ofParts t.segments t.slots = .ok t := by
  obtain ⟨lead, rest⟩ := t
  simp only [ofParts, segments, slots, List.length_map, if_true]
  congr
  induction rest with
  | nil => rfl
  | cons p rest ih => rw [List.map_cons, List.map_cons, List.zip_cons_cons, ih]

end Template

end Comprehension
