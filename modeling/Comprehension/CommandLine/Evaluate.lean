import Comprehension.Evaluation
import Comprehension.Json.Reader

/-!
# Evaluating a comprehension with JSON slots

The comprehension is a text in which a marker stands for each slot.  The slot texts fill the first
slots in order.  Where the markers are more than the slot texts, the input fills one more slot, and
otherwise the input is not looked at.
-/

namespace Comprehension.CommandLine

/-- The text that stands for a slot. -/
def marker : String := "$\x7b\x7d"

/-- What one evaluation is asked to do. -/
structure Options where
  expression : String
  slots : List String
  input? : Option String
  pretty : Bool
  safe : Bool

/-- Why an evaluation has no result.  The text that is not JSON is implicit, since the message does
not show it. -/
inductive CommandError
  | invalidJson {text : String}
  | noInput
  | parse (e : ParseError)
  | evaluation (e : EvalError)
  deriving DecidableEq

/-- The message of an error. -/
def CommandError.message : CommandError → String
  | invalidJson => "Invalid JSON"
  | noInput => "No source provided. Use --input or pipe JSON to stdin."
  | parse e => "Parse error: " ++ e.message
  | evaluation e => "Evaluation error: " ++ e.message

/-- The error of a failure. -/
def CommandError.ofFailure : Failure → CommandError
  | .parse e => parse e
  | .evaluation e => evaluation e

/-- An evaluation gives JSON text, or nothing where a failure is allowed. -/
inductive Outcome
  | success (text : String)
  | noResult
  deriving DecidableEq

/-- The slot that a JSON text denotes. -/
def readSlot (text : String) : Except CommandError Slot :=
  match Json.read? text with
  | some v => .ok (.value v)
  | none => .error (@CommandError.invalidJson text)

namespace Options

/-- Whether the expression has more markers than there are slot texts. -/
def needsInput (o : Options) : Bool :=
  o.slots.length < Text.occurrences marker.toList o.expression.toList

/-- The layout of the result. -/
def layout (o : Options) : Json.Layout := if o.pretty then .pretty else .compact

/-- The slots that the input fills. -/
def inputSlots (o : Options) : Except CommandError (List Slot) :=
  if o.needsInput then
    match o.input? with
    | none => .error .noInput
    | some text => do
      let s ← readSlot text
      return [s]
  else .ok []

/-- The mapping of the expression with its slots filled. -/
def mapping (o : Options) : Except CommandError (Mapping Value) := do
  let slots ← o.slots.mapM readSlot
  let last ← o.inputSlots
  let t ← (Template.split o.expression marker (slots ++ last)).mapError .parse
  t.evaluate.mapError .ofFailure

/-- The outcome of an evaluation, in which `safe` turns every error into no result. -/
def outcome (o : Options) : Except CommandError Outcome :=
  match o.mapping with
  | .ok m => .ok (.success (o.layout.mappingText m))
  | .error e => if o.safe then .ok .noResult else .error e

end Options

end Comprehension.CommandLine
