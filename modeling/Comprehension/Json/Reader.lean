import Comprehension.Json.Token

/-!
# Reading JSON

The reader takes one token at a time.  Between tokens it holds the arrays and objects that are still
open, innermost first, and what it expects next.  At most 127 arrays and objects may be open at
once.
-/

namespace Comprehension.Json

/-- An open array or object that waits for a value, with its items or members so far in reverse
order and, for an object, the name of the member whose value comes next. -/
inductive Frame
  | array (items : List Value)
  | object (members : List (String × Value)) (name : String)

/-- What the reader expects next, with the open arrays and objects around it.  Items and members
so far are in reverse order. -/
inductive Reading
  | value (frames : List Frame)
  | firstItem (frames : List Frame)
  | afterItem (items : List Value) (frames : List Frame)
  | firstName (frames : List Frame)
  | nextName (members : List (String × Value)) (frames : List Frame)
  | colon (name : String) (members : List (String × Value)) (frames : List Frame)
  | afterMember (members : List (String × Value)) (frames : List Frame)
  | done (v : Value)

/-- The greatest number of arrays and objects that may be open at once. -/
def maxDepth : Nat := 127

namespace Reading

/-- The reading after a value has been read within open arrays and objects. -/
def complete (v : Value) : List Frame → Reading
  | [] => done v
  | .array items :: frames => afterItem (v :: items) frames
  | .object members name :: frames => afterMember ((name, v) :: members) frames

/-- The reading after the first token of a value. -/
def startValue (frames : List Frame) : Token → Option Reading
  | .scalar v => some (complete v frames)
  | .beginArray => if frames.length < maxDepth then some (firstItem frames) else none
  | .beginObject => if frames.length < maxDepth then some (firstName frames) else none
  | _ => none

/-- The reading after one more token. -/
def step : Reading → Token → Option Reading
  | value frames, t => startValue frames t
  | firstItem frames, .endArray => some (complete (.array []) frames)
  | firstItem frames, t => startValue (.array [] :: frames) t
  | afterItem items frames, .comma => some (value (.array items :: frames))
  | afterItem items frames, .endArray => some (complete (.array items.reverse) frames)
  | firstName frames, .endObject => some (complete (.object []) frames)
  | firstName frames, .scalar (.string name) => some (colon name [] frames)
  | nextName members frames, .scalar (.string name) => some (colon name members frames)
  | colon name members frames, .colon => some (value (.object members name :: frames))
  | afterMember members frames, .comma => some (nextName members frames)
  | afterMember members frames, .endObject =>
    some (complete (.ofMembers members.reverse) frames)
  | _, _ => none

/-- The value that has been read, if it is complete. -/
def value? : Reading → Option Value
  | done v => some v
  | _ => none

end Reading

/-- The value of a sequence of tokens. -/
def ofTokens? (ts : List Token) : Option Value :=
  (ts.foldlM Reading.step (.value [])).bind Reading.value?

/-- The value that a JSON text denotes. -/
def read? (text : String) : Option Value := (tokens? text.toList).bind ofTokens?

end Comprehension.Json
