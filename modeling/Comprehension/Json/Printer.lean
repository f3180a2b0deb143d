import Comprehension.Double.Layout
import Comprehension.Json.Literal
import Comprehension.Value.Basic

/-!
# Writing JSON

Members are written in ascending order of their names, whatever their order in the object, and a
member that is undefined is left out.  An undefined value elsewhere and a number that is not finite
are written as null.  The two layouts differ only in white space between tokens.
-/

namespace Comprehension.Json

/-- A layout has no white space, or a line for each item and member. -/
inductive Layout
  | compact
  | pretty
  deriving DecidableEq

namespace Layout

/-- The start of a line within `depth` open arrays and objects, two spaces for each. -/
def line : Layout → Nat → List Char
  | compact, _ => []
  | pretty, depth => '\n' :: List.replicate (2 * depth) ' '

/-- The mark between the name and the value of a member. -/
def colon : Layout → List Char
  | compact => [':']
  | pretty => [':', ' ']

/-- Parts between brackets, separated by commas.  Brackets with nothing between them touch. -/
def bracketed (layout : Layout) (depth : Nat) (opening closing : Char)
    (parts : List (List Char)) : List Char :=
  if parts.isEmpty then [opening, closing]
  else
    opening :: layout.line (depth + 1) ++ (',' :: layout.line (depth + 1)).intercalate parts ++
      layout.line depth ++ [closing]

/-- Written members as an object, in the given order. -/
def writtenObject (layout : Layout) (depth : Nat) (members : List (String × List Char)) :
    List Char :=
  layout.bracketed depth '{' '}' (members.map fun m => literal m.1 ++ layout.colon ++ m.2)

mutual

/-- A value as JSON within `depth` open arrays and objects. -/
def written (layout : Layout) (depth : Nat) : Value → List Char
  | .undefined => "null".toList
  | .null => "null".toList
  | .boolean b => if b then "true".toList else "false".toList
  | .float x => if x.isFinite then x.plainText else "null".toList
  | .integer n => integerText n.toInt
  | .string s => literal s
  | .array items => layout.bracketed depth '[' ']' (writtenItems layout (depth + 1) items)
  | .object members =>
    layout.writtenObject depth
      (Mapping.ofList (writtenMembers layout (depth + 1) members)).entries

def writtenItems (layout : Layout) (depth : Nat) : List Value → List (List Char)
  | [] => []
  | v :: vs => written layout depth v :: writtenItems layout depth vs

/-- The members that are not undefined, with their values written. -/
def writtenMembers (layout : Layout) (depth : Nat) :
    List (String × Value) → List (String × List Char)
  | [] => []
  | (name, v) :: ms =>
    if v.isUndefined then writtenMembers layout depth ms
    else (name, written layout depth v) :: writtenMembers layout depth ms

end

/-- A value as JSON text. -/
def text (layout : Layout) (v : Value) : String := String.ofList (layout.written 0 v)

/-- A mapping as the JSON text of an object. -/
def mappingText (layout : Layout) (m : Mapping Value) : String :=
  String.ofList (layout.writtenObject 0 (layout.writtenMembers 1 m.entries))

end Layout

end Comprehension.Json
