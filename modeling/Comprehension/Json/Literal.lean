import Comprehension.Text.Blank

/-!
# String literals of JSON

`literal` writes a text as a string literal, in which the quote, the backslash and the control
characters are escaped.  `readLiteral` reads the rest of a literal after its opening quote.  The
characters and escapes of a literal are read as code units first, and `joinUnits` then makes
characters of them, so that only escapes can form a surrogate pair.
-/

namespace Comprehension.Json

/-- A code unit as four hexadecimal digits. -/
def hexQuad (n : Nat) : List Char :=
  let ds := Nat.toDigits 16 n
  List.replicate (4 - ds.length) '0' ++ ds

/-- One character inside a string literal. -/
def escaped (c : Char) : List Char :=
  if c = '"' then ['\\', '"']
  else if c = '\\' then ['\\', '\\']
  else if c = '\n' then ['\\', 'n']
  else if c = '\r' then ['\\', 'r']
  else if c = '\t' then ['\\', 't']
  else if Text.isControl c then '\\' :: 'u' :: hexQuad c.toNat
  else [c]

/-- A text as a string literal. -/
def literal (s : String) : List Char := '"' :: s.toList.flatMap escaped ++ ['"']

/-- The value of a hexadecimal digit in either case. -/
def hexDigit? (c : Char) : Option Nat :=
  if c.isDigit then some (c.toNat - '0'.toNat)
  else if 'a' ≤ c ∧ c ≤ 'f' then some (c.toNat - 'a'.toNat + 10)
  else if 'A' ≤ c ∧ c ≤ 'F' then some (c.toNat - 'A'.toNat + 10)
  else none

/-- The value of four hexadecimal digits. -/
def hexQuad? (a b c d : Char) : Option Nat := do
  return (((← hexDigit? a) * 16 + (← hexDigit? b)) * 16 + (← hexDigit? c)) * 16 + (← hexDigit? d)

/-- The character of an escape of two characters. -/
def escape? : Char → Option Char
  | '"' => some '"'
  | '\\' => some '\\'
  | '/' => some '/'
  | 'b' => some '\x08'
  | 'f' => some '\x0c'
  | 'n' => some '\n'
  | 'r' => some '\r'
  | 't' => some '\t'
  | _ => none

/-- The code units of a literal up to its closing quote, and the text after that.  A character
stands for its code point, and a control character below the space has to be escaped. -/
def readUnits : List Char → Option (List Nat × List Char)
  | [] => none
  | '"' :: cs => some ([], cs)
  | '\\' :: 'u' :: a :: b :: c :: d :: cs => do
    let n ← hexQuad? a b c d
    let (us, rest) ← readUnits cs
    return (n :: us, rest)
  | '\\' :: e :: cs => do
    let c ← escape? e
    let (us, rest) ← readUnits cs
    return (c.toNat :: us, rest)
  | c :: cs =>
    if c = '\\' ∨ c.toNat < 0x20 then none
    else do
      let (us, rest) ← readUnits cs
      return (c.toNat :: us, rest)

/-- The characters of code units: a high surrogate joins with the low surrogate after it, and no
surrogate may stand alone. -/
def joinUnits : List Nat → Option (List Char)
  | [] => some []
  | u :: us =>
    if 0xD800 ≤ u ∧ u < 0xDC00 then
      match us with
      | low :: us =>
        if 0xDC00 ≤ low ∧ low < 0xE000 then
          (joinUnits us).map (Char.ofNat (0x10000 + (u - 0xD800) * 0x400 + (low - 0xDC00)) :: ·)
        else none
      | [] => none
    else if 0xDC00 ≤ u ∧ u < 0xE000 then none
    else (joinUnits us).map (Char.ofNat u :: ·)

/-- The text of a literal after its opening quote, and what follows its closing quote. -/
def readLiteral (cs : List Char) : Option (String × List Char) := do
  let (us, rest) ← readUnits cs
  let text ← joinUnits us
  return (String.ofList text, rest)

theorem length_lt_of_readUnits {cs : List Char} {us : List Nat} {rest : List Char}
    (h : readUnits cs = some (us, rest)) : rest.length < cs.length := by
  fun_induction readUnits cs generalizing us rest with
  | case1 => simp at h
  | case2 cs => simp_all
  | case3 a b c d cs ih =>
    simp only [Option.bind_eq_bind, Option.bind_eq_some_iff, Option.pure_def, Option.some.injEq,
      Prod.mk.injEq, Prod.exists] at h
    obtain ⟨_, _, _, _, hr, _, rfl⟩ := h
    have := ih hr
    simp only [List.length_cons]
    omega
  | case4 e cs _ ih =>
    simp only [Option.bind_eq_bind, Option.bind_eq_some_iff, Option.pure_def, Option.some.injEq,
      Prod.mk.injEq, Prod.exists] at h
    obtain ⟨_, _, _, _, hr, _, rfl⟩ := h
    have := ih hr
    simp only [List.length_cons]
    omega
  | case5 => simp at h
  | case6 c cs _ _ _ _ ih =>
    simp only [Option.bind_eq_bind, Option.bind_eq_some_iff, Option.pure_def, Option.some.injEq,
      Prod.mk.injEq, Prod.exists] at h
    obtain ⟨_, _, hr, _, rfl⟩ := h
    have := ih hr
    simp only [List.length_cons]
    omega

theorem length_lt_of_readLiteral {cs : List Char} {s : String} {rest : List Char}
    (h : readLiteral cs = some (s, rest)) : rest.length < cs.length := by
  simp only [readLiteral, Option.bind_eq_bind, Option.bind_eq_some_iff, Option.pure_def,
    Option.some.injEq, Prod.mk.injEq, Prod.exists] at h
  obtain ⟨_, _, hr, _, _, _, rfl⟩ := h
  exact length_lt_of_readUnits hr

end Comprehension.Json
