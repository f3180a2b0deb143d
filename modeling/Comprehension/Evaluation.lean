import Comprehension.Json.Printer
import Comprehension.Plan
import Comprehension.Value.Key

/-!
# Evaluation

The entries of a plan are evaluated in the order of the source, and each sets the value at its key.
The first entry that fails ends the evaluation.  A report of a run holds the result and the events
on the way to it.
-/

namespace Comprehension

namespace Plan

/-- The key and the value of an entry.  An entry that has to be unpacked is checked first, then the
key is computed, and then the value. -/
def entry (p : Plan) (e : Value) : Except EvalError (String × Value) := do
  if p.bindings.unpacks && !e.isArray then
    throw (.cannotUnpack (Json.Layout.compact.text e) p.bindings.names)
  let key ← p.key.provide e
  match key.keyText? with
  | none => throw (.invalidKey key.kind)
  | some name =>
    let v ← p.value.provide e
    return (name, v)

/-- Evaluates entries into a mapping, and lists the values that were overwritten. -/
def fill (p : Plan) (m : Mapping Value) :
    List Value → List Value × Except EvalError (Mapping Value)
  | [] => ([], .ok m)
  | e :: es =>
    match p.entry e with
    | .error err => ([], .error err)
    | .ok (name, v) =>
      let (overwritten, result) := p.fill (m.insert name v) es
      ((m.get? name).toList ++ overwritten, result)

/-- The mapping of a plan, and the values that were overwritten on the way to it. -/
def run (p : Plan) : List Value × Except EvalError (Mapping Value) :=
  p.fill .empty p.entries.toList

end Plan

/-- What is reported during a run. -/
inductive Event
  | parsed (iteration : Iteration) (names : List String) (entries : Nat)
  | overwritten (previous : String)
  | noResult (message : String)

/-- The levels of events. -/
inductive Level
  | debug
  | trace
  deriving DecidableEq

namespace Level

def name : Level → String
  | debug => "DEBUG"
  | trace => "TRACE"

end Level

namespace Event

def level : Event → Level
  | parsed .. => .debug
  | overwritten _ => .trace
  | noResult _ => .debug

/-- The message of an event, without its data. -/
def message : Event → String
  | parsed .. => "parsed comprehension"
  | overwritten _ => "duplicate key overwritten"
  | noResult _ => "comprehension failed, no result"

end Event

/-- Names as they are shown in an event. -/
def shownNames (names : List String) : String :=
  String.ofList ('[' :: commaSeparated (names.map Text.quoted) ++ [']'])

/-- The result of a run and the events on the way to it. -/
structure Report (α : Type) where
  result : α
  events : List Event

namespace Template

/-- Reads and evaluates a template. -/
def run (t : Template) : Report (Except Failure (Mapping Value)) :=
  match Plan.ofTemplate t with
  | .error e => ⟨.error (.parse e), []⟩
  | .ok p =>
    let (overwritten, result) := p.run
    ⟨result.mapError .evaluation,
      .parsed p.bindings.iteration p.bindings.names p.entries.toList.length ::
        overwritten.map fun v => .overwritten (Json.Layout.compact.text v)⟩

/-- The mapping of a template. -/
def evaluate (t : Template) : Except Failure (Mapping Value) := t.run.result

/-- Reads and evaluates a template, with no result where that fails. -/
def runSafe (t : Template) : Report (Option (Mapping Value)) :=
  match t.run with
  | ⟨.ok m, events⟩ => ⟨some m, events⟩
  | ⟨.error e, events⟩ => ⟨none, events ++ [.noResult e.message]⟩

/-- The mapping of a template, or nothing. -/
def evaluate? (t : Template) : Option (Mapping Value) := t.runSafe.result

end Template

end Comprehension
