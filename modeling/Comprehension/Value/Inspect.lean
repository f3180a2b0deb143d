import Comprehension.Double.Layout
import Comprehension.Text.Quoted
import Comprehension.Value.Basic

/-!
# Values for inspection

`inspected` writes a value with the name of its kind, so that values of different kinds always look
different.
-/

namespace Comprehension

/-- Texts separated by commas. -/
def commaSeparated (texts : List (List Char)) : List Char := [',', ' '].intercalate texts

/-- A capitalised name before a parenthesised argument. -/
def tagged (tag : String) (argument : List Char) : List Char :=
  tag.toList ++ '(' :: argument ++ [')']

namespace Value

mutual

/-- A value for inspection. -/
def inspected : Value → List Char
  | undefined => "Undefined".toList
  | null => "Null".toList
  | boolean b => tagged "Boolean" (if b then "true".toList else "false".toList)
  | float x => tagged "Float" x.inspected
  | integer n => tagged "Integer" (integerText n.toInt)
  | string s => tagged "String" (Text.quoted s)
  | array items => tagged "Array" ('[' :: commaSeparated (inspectedItems items) ++ [']'])
  | object members =>
    tagged "Object" ('{' :: commaSeparated (inspectedMembers members) ++ ['}'])

def inspectedItems : List Value → List (List Char)
  | [] => []
  | v :: vs => inspected v :: inspectedItems vs

def inspectedMembers : List (String × Value) → List (List Char)
  | [] => []
  | (name, v) :: ms => (Text.quoted name ++ ':' :: ' ' :: inspected v) :: inspectedMembers ms

end

end Value

end Comprehension
