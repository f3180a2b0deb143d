import Comprehension.Bindings
import Comprehension.Identifier
import Comprehension.Text.Blank

/-!
# Iteration clauses

A clause stands between the value and the source: `over` binds the implicit name, and `for` is
followed by names with commas between them and by `of` or `in`.
-/

namespace Comprehension

open Text

/-- Identifiers with commas between them that a text starts with, and the rest.  White space may
surround a comma. -/
def readNames (cs : List Char) : Option (List String × List Char) :=
  match _h : readIdentifier cs with
  | none => none
  | some (name, rest) =>
    match _hr : trimStart rest with
    | ',' :: more =>
      (readNames (trimStart more)).map fun p => (String.ofList name :: p.1, p.2)
    | _ => some ([String.ofList name], rest)
termination_by cs.length
decreasing_by
  have h₁ := length_lt_of_readIdentifier _h
  have h₂ := length_trimStart_le rest
  have h₃ := length_trimStart_le more
  rw [_hr, List.length_cons] at h₂
  omega

/-- The iteration that a `for` clause ends with: white space and a keyword. -/
def iteration? (cs : List Char) : Option Iteration :=
  match cs with
  | [] => none
  | c :: _ =>
    if isBlank c then
      match trimStart cs with
      | ['o', 'f'] => some .each
      | ['i', 'n'] => some .keys
      | _ => none
    else none

/-- The names and the iteration of a `for` clause. -/
def forClause? : List Char → Option (List String × Iteration)
  | 'f' :: 'o' :: 'r' :: c :: cs =>
    if isBlank c then do
      let (names, rest) ← readNames (trimStart cs)
      let iteration ← iteration? rest
      return (names, iteration)
    else none
  | _ => none

/-- The bindings of a clause, which has no white space at its ends. -/
def readClause (cs : List Char) : Except ParseError Bindings :=
  if cs = "over".toList then .ok Bindings.implicit
  else
    match forClause? cs with
    | some (names, iteration) => Bindings.ofNames iteration names
    | none => .error (.invalidIteration (String.ofList cs))

end Comprehension
