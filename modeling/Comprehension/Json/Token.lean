import Comprehension.Json.Literal
import Comprehension.Json.Numeral

/-!
# Tokens of JSON

A JSON text is white space and tokens: six punctuation marks and the scalar values.  White space is
only the space, the tab and the two line ends.
-/

namespace Comprehension.Json

/-- A punctuation mark or a scalar value. -/
inductive Token
  | beginArray
  | endArray
  | beginObject
  | endObject
  | comma
  | colon
  | scalar (v : Value)

/-- The white space between tokens. -/
def isSpace (c : Char) : Bool := c == ' ' || c == '\t' || c == '\n' || c == '\r'

/-- The token that a text starts with, and the rest. -/
def readToken : List Char → Option (Token × List Char)
  | '[' :: cs => some (.beginArray, cs)
  | ']' :: cs => some (.endArray, cs)
  | '{' :: cs => some (.beginObject, cs)
  | '}' :: cs => some (.endObject, cs)
  | ',' :: cs => some (.comma, cs)
  | ':' :: cs => some (.colon, cs)
  | 'n' :: 'u' :: 'l' :: 'l' :: cs => some (.scalar .null, cs)
  | 't' :: 'r' :: 'u' :: 'e' :: cs => some (.scalar (.boolean true), cs)
  | 'f' :: 'a' :: 'l' :: 's' :: 'e' :: cs => some (.scalar (.boolean false), cs)
  | '"' :: cs => (readLiteral cs).map fun p => (.scalar (.string p.1), p.2)
  | cs => do
    let (n, cs) ← readNumeral cs
    let v ← n.value?
    return (.scalar v, cs)

theorem length_lt_of_readToken {cs rest : List Char} {t : Token}
    (h : readToken cs = some (t, rest)) : rest.length < cs.length := by
  unfold readToken at h
  split at h
  case h_10 =>
    simp only [Option.map_eq_some_iff, Prod.mk.injEq, Prod.exists] at h
    obtain ⟨_, _, hl, _, rfl⟩ := h
    exact Nat.lt_succ_of_lt (length_lt_of_readLiteral hl)
  case h_11 =>
    simp only [Option.bind_eq_bind, Option.bind_eq_some_iff, Option.pure_def, Option.some.injEq,
      Prod.mk.injEq, Prod.exists] at h
    obtain ⟨_, _, hn, _, _, _, rfl⟩ := h
    exact length_lt_of_readNumeral hn
  all_goals
    simp only [Option.some.injEq, Prod.mk.injEq] at h
    obtain ⟨_, rfl⟩ := h
    simp only [List.length_cons]
    omega

/-- The tokens of a text. -/
def tokens? (cs : List Char) : Option (List Token) :=
  match cs with
  | [] => some []
  | c :: cs =>
    if isSpace c then tokens? cs
    else
      match _h : readToken (c :: cs) with
      | none => none
      | some (t, rest) => (tokens? rest).map (t :: ·)
termination_by cs.length
decreasing_by
  · simp
  · exact length_lt_of_readToken _h

end Comprehension.Json
