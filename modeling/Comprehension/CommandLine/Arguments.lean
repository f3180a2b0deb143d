import Comprehension.CommandLine.Evaluate

/-!
# Arguments of an evaluation

The expression is the one argument that is no option.  An option with a value takes it after an
equals sign, in the same argument after its letter, or from the next argument, which then may not
look like an option.  Letters of options may share an argument.  After `--` no argument is an
option.
-/

namespace Comprehension.CommandLine

/-- The options without a value. -/
inductive Flag
  | pretty
  | safe

/-- The options with a value. -/
inductive Setting
  | slot
  | input

/-- Why arguments ask for no evaluation: they are refused, or ask for help. -/
inductive Refusal
  | usage
  | help
  deriving DecidableEq

/-- The options read so far. -/
structure Draft where
  expression? : Option String
  slots : List String
  input? : Option String
  pretty : Bool
  safe : Bool

namespace Draft

def empty : Draft := ⟨none, [], none, false, false⟩

/-- A draft with a flag set, which may happen once. -/
def setFlag (d : Draft) : Flag → Except Refusal Draft
  | .pretty => if d.pretty then .error .usage else .ok { d with pretty := true }
  | .safe => if d.safe then .error .usage else .ok { d with safe := true }

/-- A draft with a value set.  Slots may be set many times and the input once. -/
def set (d : Draft) (value : String) : Setting → Except Refusal Draft
  | .slot => .ok { d with slots := d.slots ++ [value] }
  | .input => if d.input?.isSome then .error .usage else .ok { d with input? := some value }

/-- A draft with the expression set, which may happen once. -/
def setExpression (d : Draft) (text : String) : Except Refusal Draft :=
  if d.expression?.isSome then .error .usage else .ok { d with expression? := some text }

/-- The options of a draft that has an expression. -/
def options (d : Draft) : Except Refusal Options :=
  match d.expression? with
  | none => .error .usage
  | some expression => .ok ⟨expression, d.slots, d.input?, d.pretty, d.safe⟩

/-- Reads the value of a setting after its letter.  Without one the setting waits for its value. -/
def readAttached (d : Draft) (setting : Setting) :
    List Char → Except Refusal (Draft × Option Setting)
  | [] => .ok (d, some setting)
  | '=' :: cs => do return (← d.set (String.ofList cs) setting, none)
  | cs => do return (← d.set (String.ofList cs) setting, none)

/-- Reads letters of options in one argument, and gives the setting that waits for a value. -/
def readLetters (d : Draft) : List Char → Except Refusal (Draft × Option Setting)
  | [] => .ok (d, none)
  | 'p' :: cs => do
    let d ← d.setFlag .pretty
    d.readLetters cs
  | 's' :: cs => d.readAttached .slot cs
  | 'i' :: cs => d.readAttached .input cs
  | 'h' :: _ => .error .help
  | _ :: _ => .error .usage

/-- Reads an option by its name and the value after its equals sign, and gives the setting that
waits for a value. -/
def readNamed (d : Draft) (name : String) (value? : Option String) :
    Except Refusal (Draft × Option Setting) :=
  match name, value? with
  | "pretty", none => do return (← d.setFlag .pretty, none)
  | "safe", none => do return (← d.setFlag .safe, none)
  | "help", none => .error .help
  | "slot", some value => do return (← d.set value .slot, none)
  | "slot", none => .ok (d, some .slot)
  | "input", some value => do return (← d.set value .input, none)
  | "input", none => .ok (d, some .input)
  | _, _ => .error .usage

/-- Reads the arguments after `--`. -/
def readPositional (d : Draft) : List String → Except Refusal Draft
  | [] => .ok d
  | a :: as => do
    let d ← d.setExpression a
    d.readPositional as

end Draft

/-- The name of a long option and the text after its first equals sign. -/
def namedOption (cs : List Char) : String × Option String :=
  match cs.dropWhile (· != '=') with
  | _ :: value => (String.ofList (cs.takeWhile (· != '=')), some (String.ofList value))
  | [] => (String.ofList cs, none)

/-- Whether an argument cannot be the value of the option before it. -/
def looksLikeOption (a : String) : Bool :=
  match a.toList with
  | '-' :: _ :: _ => true
  | _ => false

namespace Draft

/-- Reads one argument other than `--`, and gives the setting that waits for a value. -/
def readArgument (d : Draft) (a : String) : Except Refusal (Draft × Option Setting) :=
  match a.toList with
  | '-' :: '-' :: cs => d.readNamed (namedOption cs).1 (namedOption cs).2
  | '-' :: c :: cs => d.readLetters (c :: cs)
  | _ => do return (← d.setExpression a, none)

/-- Reads the arguments of an evaluation. -/
def readArguments (d : Draft) : List String → Except Refusal Draft
  | [] => .ok d
  | a :: as =>
    if a = "--" then d.readPositional as
    else
      match d.readArgument a with
      | .error r => .error r
      | .ok (d, none) => d.readArguments as
      | .ok (d, some setting) =>
        match as with
        | [] => .error .usage
        | value :: as =>
          if looksLikeOption value then .error .usage
          else
            match d.set value setting with
            | .error r => .error r
            | .ok d => d.readArguments as

end Draft

end Comprehension.CommandLine
