import Comprehension.Iteration
import Comprehension.Value.Basic

/-!
# Errors of reading a comprehension

Each constructor of `ParseError` is one cause, and `ParseError.message` puts it into words.
-/

namespace Comprehension

/-- The two halves of an entry. -/
inductive Half
  | key
  | value
  deriving DecidableEq

/-- The name of a half in messages. -/
def Half.name : Half → String
  | key => "key"
  | value => "value"

/-- What a slot holds. -/
inductive SlotKind
  | value (kind : Kind)
  | function
  deriving DecidableEq

/-- The name of what a slot holds. -/
def SlotKind.name : SlotKind → String
  | value kind => kind.name
  | function => "function"

/-- Why a template is no comprehension. -/
inductive ParseError
  | missing (half : Half)
  | invalidReference (half : Half) (found : String)
  | missingColon (found : String)
  | invalidIteration (found : String)
  | severalKeyNames (names : List String)
  | invalidSource (iteration : Iteration) (found? : Option SlotKind)
  | unknownName (name : String) (bound : List String)
  | keyTraversal (reference : String)
  | trailingText (text : String)
  | extraSlot (kind : SlotKind)
  | segmentMismatch (segments slots : Nat)
  deriving DecidableEq

/-- Names between square brackets. -/
def nameList (names : List String) : String := "[" ++ ", ".intercalate names ++ "]"

/-- What a source has to be, given what was found in its place. -/
def expectedSource (iteration : Iteration) : Option SlotKind → String
  | none => "a slot"
  | some .function => "a value"
  | some (.value _) => if iteration.walksItems then "an array" else "an object or an array"

/-- The words for the kind of a found slot, or for its absence. -/
def foundSource : Option SlotKind → String
  | none => "nothing"
  | some kind => kind.name

/-- The message of an error. -/
def ParseError.message : ParseError → String
  | missing half => "expecting a " ++ half.name
  | invalidReference half found =>
    "invalid " ++ half.name ++ " reference format: '" ++ found ++ "'"
  | missingColon found => "missing ':' before '" ++ found ++ "'"
  | invalidIteration found =>
    "invalid iteration operator, expecting 'over', 'for ... of' or 'for ... in', found '" ++ found ++
      "'"
  | severalKeyNames names =>
    "'in' iterates keys and binds a single name, found " ++ nameList names
  | invalidSource iteration found? =>
    "invalid source for '" ++ iteration.keyword ++ "': expected " ++
      expectedSource iteration found? ++ ", found " ++ foundSource found?
  | unknownName name bound =>
    "unknown field name '" ++ name ++ "', bound names are " ++ nameList bound
  | keyTraversal reference =>
    "cannot traverse '" ++ reference ++ "': keys iterated with 'in' are plain strings"
  | trailingText text => "unexpected input after the source: '" ++ text ++ "'"
  | extraSlot kind => "unexpected input after the source: 'an extra " ++ kind.name ++ " slot'"
  | segmentMismatch segments slots =>
    "a template needs one more text segment than slots, got " ++ toString segments ++
      " segments and " ++ toString slots ++ " slots"

end Comprehension
