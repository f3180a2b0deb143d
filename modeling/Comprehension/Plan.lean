import Comprehension.Clause
import Comprehension.Entries
import Comprehension.Provider

/-!
# Plans

A plan is a comprehension that has been read: a key and a value provider, bound names and entries.
`Plan.ofTemplate` reads the key, a colon, the value, the clause, the source and the end of a
template, in this order, and binds the key and the value last.  Between these steps a cursor holds
what is left to read.
-/

namespace Comprehension

open Text

/-- What is left of a template: the unread text before the next slot, and the slots ahead. -/
structure Cursor where
  text : List Char
  ahead : List (Slot × String)

namespace Cursor

/-- The start of a template: its braces and the white space around them are skipped. -/
def start (t : Template) : Cursor := ⟨trim (stripRun '{' (trim t.lead.toList)), t.rest⟩

/-- The next slot.  The text before it is left behind. -/
def takeSlot? (c : Cursor) : Option (Slot × Cursor) :=
  match c.ahead with
  | [] => none
  | (s, segment) :: ahead => some (s, ⟨trim segment.toList, ahead⟩)

/-- Reads the operand of a key or a value: a slot where there is no text, else a reference.  A key
that is a null or undefined value is missing. -/
def readOperand (half : Half) (c : Cursor) : Except ParseError (Operand × Cursor) :=
  if c.text = [] then
    match c.takeSlot? with
    | none => .error (.missing half)
    | some (s, c) =>
      if half = .key ∧ s.isNullish = true then .error (.missing half) else .ok (.slot s, c)
  else
    match readReference c.text with
    | none => .error (.invalidReference half (String.ofList c.text))
    | some (r, rest) => .ok (.reference r, { c with text := trimStart rest })

/-- Reads the colon between key and value. -/
def readColon (c : Cursor) : Except ParseError Cursor :=
  match c.text with
  | ':' :: rest => .ok { c with text := trimStart rest }
  | text => .error (.missingColon (String.ofList text))

/-- Reads the clause, which takes all the text before the source. -/
def readBindings (c : Cursor) : Except ParseError (Bindings × Cursor) := do
  let b ← readClause (trim c.text)
  return (b, { c with text := [] })

/-- Reads the source. -/
def readEntries (iteration : Iteration) (c : Cursor) : Except ParseError (Entries × Cursor) :=
  match c.takeSlot? with
  | none => .error (.invalidSource iteration none)
  | some (s, c) => do
    let entries ← Entries.ofSlot iteration s
    return (entries, c)

/-- Whether a character may follow the source. -/
def isClosing (ch : Char) : Bool := ch == '}' || isBlank ch

/-- Checks that only closing braces and white space follow the source, and no slot. -/
def readEnd (c : Cursor) : Except ParseError Unit :=
  match c.text.dropWhile isClosing, c.ahead with
  | ch :: rest, _ => .error (.trailingText (String.ofList (ch :: rest)))
  | [], (s, _) :: _ => .error (.extraSlot s.kind)
  | [], [] => .ok ()

end Cursor

/-- A comprehension that is ready to be evaluated. -/
structure Plan where
  key : Provider
  value : Provider
  bindings : Bindings
  entries : Entries

namespace Plan

/-- Reads a template. -/
def ofTemplate (t : Template) : Except ParseError Plan := do
  let (key, c) ← (Cursor.start t).readOperand .key
  let c ← c.readColon
  let (value, c) ← c.readOperand .value
  let (bindings, c) ← c.readBindings
  let (entries, c) ← c.readEntries bindings.iteration
  c.readEnd
  let key ← Provider.bind bindings key
  let value ← Provider.bind bindings value
  return ⟨key, value, bindings, entries⟩

end Plan

end Comprehension
