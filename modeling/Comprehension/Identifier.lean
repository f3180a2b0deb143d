/-!
# Identifiers

An identifier is a letter, an underscore or a dollar sign, followed by letters, digits, underscores,
dollar signs and hyphens.  Letters and digits are those of ASCII.  No identifier is reserved.
-/

namespace Comprehension

/-- An identifier starts with a letter, an underscore or a dollar sign. -/
def isIdentifierStart (c : Char) : Bool := c.isAlpha || c == '_' || c == '$'

/-- After its start an identifier may also have digits and hyphens. -/
def isIdentifierChar (c : Char) : Bool := isIdentifierStart c || c.isDigit || c == '-'

/-- Whether a text is an identifier. -/
def isIdentifier : List Char → Bool
  | [] => false
  | c :: cs => isIdentifierStart c && cs.all isIdentifierChar

/-- The longest identifier that a text starts with, and the rest. -/
def readIdentifier : List Char → Option (List Char × List Char)
  | [] => none
  | c :: cs =>
    if isIdentifierStart c then
      some (c :: cs.takeWhile isIdentifierChar, cs.dropWhile isIdentifierChar)
    else none

/-- What is read is an identifier. -/
theorem isIdentifier_of_readIdentifier {cs name rest : List Char}
    (h : readIdentifier cs = some (name, rest)) : isIdentifier name = true := by
  cases cs with
  | nil => simp [readIdentifier] at h
  | cons c cs =>
    simp only [readIdentifier] at h
    split at h
    · rename_i hc
      simp only [Option.some.injEq, Prod.mk.injEq] at h
      obtain ⟨rfl, _⟩ := h
      simp only [isIdentifier, hc, Bool.true_and]
      exact List.all_takeWhile
    · simp at h

/-- Reading an identifier loses no character. -/
theorem append_of_readIdentifier {cs name rest : List Char}
    (h : readIdentifier cs = some (name, rest)) : name ++ rest = cs := by
  cases cs with
  | nil => simp [readIdentifier] at h
  | cons c cs =>
    simp only [readIdentifier] at h
    split at h
    · simp only [Option.some.injEq, Prod.mk.injEq] at h
      obtain ⟨rfl, rfl⟩ := h
      rw [List.cons_append, List.takeWhile_append_dropWhile]
    · simp at h

theorem length_lt_of_readIdentifier {cs name rest : List Char}
    (h : readIdentifier cs = some (name, rest)) : rest.length < cs.length := by
  have hn := isIdentifier_of_readIdentifier h
  rw [← append_of_readIdentifier h, List.length_append]
  cases name with
  | nil => simp [isIdentifier] at hn
  | cons c name => simp only [List.length_cons]; omega

end Comprehension
