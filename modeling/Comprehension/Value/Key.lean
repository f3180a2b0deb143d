import Comprehension.Double.Layout
import Comprehension.Value.Basic

/-!
# Values as keys

Strings and numbers name entries of a mapping: a string by itself, an integer by its digits and
another number by its key text.
-/

namespace Comprehension.Value

/-- The key that a value stands for, if it is a string or a number. -/
def keyText? : Value → Option String
  | string s => some s
  | integer n => some (String.ofList (integerText n.toInt))
  | float x => some (String.ofList x.keyText)
  | _ => none

/-- Exactly the strings and the numbers stand for keys. -/
theorem isSome_keyText?_iff {v : Value} :
    v.keyText?.isSome = true ↔ v.kind = .string ∨ v.kind = .integer ∨ v.kind = .float := by
  cases v <;> simp [keyText?, kind]

end Comprehension.Value
