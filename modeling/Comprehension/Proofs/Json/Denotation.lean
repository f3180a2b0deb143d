import Comprehension.Json.Reader
import Comprehension.Proofs.Json.Scalars

/-!
# What JSON texts denote

The grammar of JSON with the value that each text denotes.  It follows the grammar without values
part by part, bounds how deep arrays and objects are nested, and leaves out the numbers that no
double is near and the strings whose code units are not those of characters.

## Main definitions

* `Json.Part`, `Json.Denotes`: the parts of a text and what they denote.
* `Json.IsJsonOf`: JSON texts and their values.

## Main results

* `Json.Denotes.partText`, `Json.IsJsonOf.isJson`: what denotes a value is JSON.
-/

namespace Comprehension.Json

/-- What a part of a text may denote: a value, a member of an object, or all items or members
between two brackets. -/
inductive Part
  | value (v : Value)
  | member (m : String × Value)
  | items (vs : List Value)
  | members (ms : List (String × Value))

/-- What a part of a text denotes, in which at most so many arrays and objects are nested. -/
inductive Denotes : Nat → List Char → Part → Prop
  | null {k : Nat} : Denotes k "null".toList (.value .null)
  | boolean {k : Nat} (b : Bool) :
      Denotes k (if b then "true".toList else "false".toList) (.value (.boolean b))
  | number {k : Nat} {cs : List Char} {n : Numeral} {v : Value} :
      DenotesNumeral cs n → n.value? = some v → Denotes k cs (.value v)
  | string {k : Nat} {cs : List Char} {s : String} :
      DenotesString cs s → Denotes k cs (.value (.string s))
  | emptyArray {k : Nat} {w : List Char} :
      Spaces w → Denotes (k + 1) ('[' :: w ++ [']']) (.value (.array []))
  | array {k : Nat} {cs : List Char} {vs : List Value} :
      Denotes k cs (.items vs) → Denotes (k + 1) ('[' :: cs ++ [']']) (.value (.array vs))
  | emptyObject {k : Nat} {w : List Char} :
      Spaces w → Denotes (k + 1) ('{' :: w ++ ['}']) (.value (.object []))
  | object {k : Nat} {cs : List Char} {ms : List (String × Value)} :
      Denotes k cs (.members ms) → Denotes (k + 1) ('{' :: cs ++ ['}']) (.value (.ofMembers ms))
  | member {k : Nat} {name w w' cs : List Char} {s : String} {v : Value} :
      DenotesString name s → Spaces w → Spaces w' → Denotes k cs (.value v) →
      Denotes k (name ++ (w ++ ':' :: (w' ++ cs))) (.member (s, v))
  | lastItem {k : Nat} {w cs w' : List Char} {v : Value} :
      Spaces w → Denotes k cs (.value v) → Spaces w' → Denotes k (w ++ (cs ++ w')) (.items [v])
  | moreItems {k : Nat} {w cs w' ds : List Char} {v : Value} {vs : List Value} :
      Spaces w → Denotes k cs (.value v) → Spaces w' → Denotes k ds (.items vs) →
      Denotes k (w ++ (cs ++ (w' ++ ',' :: ds))) (.items (v :: vs))
  | lastMember {k : Nat} {w cs w' : List Char} {m : String × Value} :
      Spaces w → Denotes k cs (.member m) → Spaces w' → Denotes k (w ++ (cs ++ w')) (.members [m])
  | moreMembers {k : Nat} {w cs w' ds : List Char} {m : String × Value}
      {ms : List (String × Value)} :
      Spaces w → Denotes k cs (.member m) → Spaces w' → Denotes k ds (.members ms) →
      Denotes k (w ++ (cs ++ (w' ++ ',' :: ds))) (.members (m :: ms))

/-- One JSON text with its value: the text of the value has white space around it. -/
inductive IsJsonOf (v : Value) : String → Prop
  | value {w cs w' : List Char} :
      Spaces w → Denotes maxDepth cs (.value v) → Spaces w' →
      IsJsonOf v (String.ofList (w ++ (cs ++ w')))

/-! ### The grammar without values -/

/-- The texts that the grammar has for parts of one kind. -/
def PartText (cs : List Char) : Part → Prop
  | .value _ => ValueText cs
  | .member _ => MemberText ValueText cs
  | .items _ => Separated ValueText cs
  | .members _ => Separated (MemberText ValueText) cs

variable {k : Nat} {cs : List Char}

/-- What denotes a part is a text of it. -/
theorem Denotes.partText {p : Part} (h : Denotes k cs p) : PartText cs p := by
  induction h with
  | null => exact .null
  | boolean b => exact .boolean b
  | number hnumeral => exact .number (numberText_iff.mpr ⟨_, hnumeral⟩)
  | string hstring => exact .string hstring.stringText
  | emptyArray hw => exact .emptyArray hw
  | array _ ih => exact .array ih
  | emptyObject hw => exact .emptyObject hw
  | object _ ih => exact .object ih
  | member hname hw hw' _ ih => exact .colon hname.stringText hw hw' ih
  | lastItem hw _ hw' ih => exact .last hw ih hw'
  | moreItems hw _ hw' _ ih ihs => exact .comma hw ih hw' ihs
  | lastMember hw _ hw' ih => exact .last hw ih hw'
  | moreMembers hw _ hw' _ ih ihs => exact .comma hw ih hw' ihs

/-- A text that denotes a value is JSON. -/
theorem IsJsonOf.isJson {v : Value} {text : String} (h : IsJsonOf v text) : IsJson text := by
  obtain ⟨hw, hvalue, hw'⟩ := h
  exact .value hw hvalue.partText hw'

/-- The value of a numeral is an integer or a double. -/
theorem Numeral.value?_cases {n : Numeral} {v : Value} (h : n.value? = some v) :
    (∃ k, v = .integer k) ∨ ∃ x, v = .float x := by
  rw [value?] at h
  cases hinteger : n.integer? with
  | some k =>
    rw [hinteger] at h
    exact .inl ⟨k, (Option.some.inj h).symm⟩
  | none =>
    rw [hinteger] at h
    obtain ⟨x, -, rfl⟩ := Option.map_eq_some_iff.mp h
    exact .inr ⟨x, rfl⟩

/-- Only string literals denote texts. -/
theorem Denotes.denotesString {s : String} (h : Denotes k cs (.value (.string s))) :
    DenotesString cs s := by
  cases h with
  | string hstring => exact hstring
  | number _ hvalue => exact absurd (Numeral.value?_cases hvalue) (by simp)

end Comprehension.Json
