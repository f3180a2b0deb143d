import Comprehension.Text.Shown

/-!
# Quoted texts

`quoted` shows a text between double quotes for inspection: the quote, the backslash and four
control characters have escapes of two characters, and every other character that is not shown as
itself is written by its code point.
-/

namespace Comprehension.Text

/-- One character of a quoted text. -/
def quotedChar (c : Char) : List Char :=
  if c = '\x00' then ['\\', '0']
  else if c = '\t' then ['\\', 't']
  else if c = '\r' then ['\\', 'r']
  else if c = '\n' then ['\\', 'n']
  else if c = '"' then ['\\', '"']
  else if c = '\\' then ['\\', '\\']
  else if isShown c then [c]
  else ['\\', 'u', '{'] ++ Nat.toDigits 16 c.toNat ++ ['}']

/-- A text between double quotes, with the characters escaped that are not shown as themselves. -/
def quoted (s : String) : List Char := '"' :: s.toList.flatMap quotedChar ++ ['"']

end Comprehension.Text
