import Comprehension.Template

/-!
# Entries of a source

A source is a value in a slot.  Walking its items asks for an array, walking its keys for an object
or for an array, whose keys are the positions of its items.
-/

namespace Comprehension

/-- The entries that a source gives: the items of an array, or keys. -/
inductive Entries
  | items (values : List Value)
  | keys (names : List String)

namespace Entries

/-- The entries as values, in the order of the source. -/
def toList : Entries → List Value
  | items values => values
  | keys names => names.map .string

/-- The positions below a length, in decimal. -/
def positions (n : Nat) : List String :=
  (List.range n).map fun i => String.ofList (Nat.toDigits 10 i)

/-- The entries of a source value. -/
def ofValue (iteration : Iteration) (v : Value) : Except ParseError Entries :=
  match iteration.walksItems, v with
  | true, .array values => .ok (items values)
  | false, .object members => .ok (keys (members.map Prod.fst))
  | false, .array values => .ok (keys (positions values.length))
  | _, v => .error (.invalidSource iteration (some (.value v.kind)))

/-- The entries of the slot that stands for the source. -/
def ofSlot (iteration : Iteration) : Slot → Except ParseError Entries
  | .function _ => .error (.invalidSource iteration (some .function))
  | .value v => ofValue iteration v

end Entries

end Comprehension
