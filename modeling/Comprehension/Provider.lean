import Comprehension.Bindings
import Comprehension.EvalError
import Comprehension.Reference
import Comprehension.Template
import Comprehension.Value.Inspect

/-!
# Operands and providers

The key and the value of a comprehension are written as operands: references in the text, or slots.
Binding an operand to the names of the clause resolves a reference to a position, and the resulting
provider gives a value for each entry.  A value in a slot is never read as a reference.
-/

namespace Comprehension

/-- What is written for a key or a value. -/
inductive Operand
  | reference (r : Reference)
  | slot (s : Slot)

/-- What gives a key or a value for each entry: a function, the same value for all, or a path from
the entry or, where entries are split across several names, from the item at a position. -/
inductive Provider
  | function (f : Value → Except String Value)
  | constant (v : Value)
  | field (reference : Reference) (position : Nat) (destructures : Bool)

namespace Provider

/-- The provider of an operand under the names of a clause. -/
def bind (b : Bindings) : Operand → Except ParseError Provider
  | .slot (.function f) => .ok (function f)
  | .slot (.value v) => .ok (constant v)
  | .reference r =>
    match b.position? r.head with
    | none => .error (.unknownName r.head b.names)
    | some position =>
      if b.iteration = .keys ∧ r.tail ≠ [] then .error (.keyTraversal r.raw)
      else .ok (field r position b.destructures)

/-- The value that a path of member names leads to. -/
def follow? (v : Value) (path : List String) : Option Value := path.foldlM Value.member? v

/-- The value for an entry.  A path that leads nowhere gives the undefined value. -/
def provide (entry : Value) : Provider → Except EvalError Value
  | function f => (f entry).mapError .rejected
  | constant v => .ok v
  | field r position destructures =>
    let base? := if destructures then entry.item? position else some entry
    .ok ((base?.bind fun base => follow? base r.tail).getD .undefined)

end Provider

/-! ### Inspection -/

/-- A reference for inspection. -/
def Reference.inspected (r : Reference) : List Char :=
  "Reference \x7b raw: ".toList ++ Text.quoted r.raw ++ ", parts: [".toList ++
    commaSeparated (r.parts.map Text.quoted) ++ "] \x7d".toList

/-- A function for inspection. -/
def inspectedFunction : List Char := "Function(..)".toList

/-- A slot for inspection. -/
def Slot.inspected : Slot → List Char
  | .value v => tagged "Value" v.inspected
  | .function _ => inspectedFunction

/-- An operand for inspection. -/
def Operand.inspected : Operand → List Char
  | .reference r => tagged "Reference" r.inspected
  | .slot (.value v) => tagged "Literal" v.inspected
  | .slot (.function _) => inspectedFunction

/-- A provider for inspection. -/
def Provider.inspected : Provider → List Char
  | .function _ => inspectedFunction
  | .constant v => tagged "Constant" v.inspected
  | .field r position destructures =>
    "Field \x7b reference: ".toList ++ r.inspected ++ ", index: ".toList ++
      Nat.toDigits 10 position ++ ", destructure: ".toList ++
      (if destructures then "true".toList else "false".toList) ++ " \x7d".toList

end Comprehension
