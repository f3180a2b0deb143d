import Comprehension.Value.Basic

/-!
# Equality of values

Values of different kinds are never equal.  Numbers that are not integers are equal as numbers, and
objects are equal when they have equally many members and each member of one equals the member of
that name of the other.
-/

namespace Comprehension.Value

mutual

/-- Whether two values are equal. -/
def equal : Value → Value → Bool
  | undefined, undefined => true
  | null, null => true
  | boolean a, boolean b => a == b
  | float x, float y => x.equal y
  | integer m, integer n => m == n
  | string s, string t => s == t
  | array xs, array ys => equalItems xs ys
  | object ms, object ns => ms.length == ns.length && equalMembers ms ns
  | _, _ => false

/-- Whether two lists of values are equal item by item. -/
def equalItems : List Value → List Value → Bool
  | [], [] => true
  | v :: vs, w :: ws => equal v w && equalItems vs ws
  | _, _ => false

/-- Whether every member of the first list equals the member of its name in the second. -/
def equalMembers : List (String × Value) → List (String × Value) → Bool
  | [], _ => true
  | (name, v) :: ms, ns =>
    (match ns.lookup name with
      | some w => equal v w
      | none => false) && equalMembers ms ns

end

instance : BEq Value := ⟨equal⟩

end Comprehension.Value
