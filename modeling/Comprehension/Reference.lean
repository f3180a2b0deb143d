import Comprehension.Identifier

/-!
# References

A reference is a bound name followed by the names of members to follow from it, written with dots
between them.  Reading takes the longest reference that a text starts with: a dot belongs to it only
when an identifier comes next.
-/

namespace Comprehension

/-- A bound name and the members to follow from its value. -/
structure Reference where
  head : String
  tail : List String
  deriving DecidableEq

namespace Reference

/-- The bound name and the members. -/
def parts (r : Reference) : List String := r.head :: r.tail

/-- The text of a reference. -/
def raw (r : Reference) : String := ".".intercalate r.parts

end Reference

/-- The identifiers after dots that a text starts with, and the rest. -/
def readSteps (cs : List Char) : List (List Char) × List Char :=
  match cs with
  | '.' :: more =>
    match _h : readIdentifier more with
    | some (name, rest) => let (names, rest) := readSteps rest; (name :: names, rest)
    | none => ([], '.' :: more)
  | cs => ([], cs)
termination_by cs.length
decreasing_by
  have := length_lt_of_readIdentifier _h
  simp only [List.length_cons]
  omega

/-- The longest reference that a text starts with, and the rest. -/
def readReference (cs : List Char) : Option (Reference × List Char) := do
  let (head, rest) ← readIdentifier cs
  let (tail, rest) := readSteps rest
  return (⟨String.ofList head, tail.map String.ofList⟩, rest)

/-- The reference that a text starts with. -/
def Reference.ofText? (text : String) : Option Reference :=
  (readReference text.toList).map Prod.fst

end Comprehension
