import Comprehension.CommandLine.Arguments
import Comprehension.CommandLine.Grammar

/-!
# Invocations

An invocation is what the arguments of the program ask for.  Its response is an exit code and the
texts for the two output streams, and depends on the standard input only where an evaluation needs
input and was given none.  A terminal is no standard input.
-/

namespace Comprehension.CommandLine

/-- What the arguments of the program ask for. -/
inductive Invocation
  | evaluate (options : Options)
  | grammar
  | version
  | help
  | misuse

/-- What the program answers. -/
structure Response where
  exitCode : Nat
  output : String
  errors : String
  deriving DecidableEq

/-- The response to an evaluation. -/
def Response.ofOutcome : Except CommandError Outcome → Response
  | .ok (.success text) => ⟨0, text ++ "\n", ""⟩
  | .ok .noResult => ⟨0, "null\n", ""⟩
  | .error e => ⟨1, "", e.message ++ "\n"⟩

/-- The name and version of the program. -/
def versionText : String := "objcomp 0.1.0\n"

/-- How the program is used. -/
def usageText : String :=
  "Usage: objcomp eval [OPTIONS] <EXPRESSION>\n       objcomp grammar\n       objcomp --version\n"

namespace Invocation

def ofRefusal : Refusal → Invocation
  | .usage => misuse
  | .help => help

/-- The invocation of the arguments after `eval`. -/
def ofEvaluation (arguments : List String) : Invocation :=
  match Draft.empty.readArguments arguments with
  | .error r => ofRefusal r
  | .ok d =>
    match d.options with
    | .error r => ofRefusal r
    | .ok o => evaluate o

/-- The invocation of the arguments of the program. -/
def ofArguments : List String → Invocation
  | "eval" :: arguments => ofEvaluation arguments
  | ["grammar"] => grammar
  | ["grammar", "--"] => grammar
  | "grammar" :: a :: _ => if a = "--help" ∨ a = "-h" then help else misuse
  | a :: _ =>
    if a = "--version" ∨ a = "-V" then version
    else if a = "--help" ∨ a = "-h" ∨ a = "help" then help
    else misuse
  | [] => misuse

/-- Whether the response depends on the standard input. -/
def readsInput : Invocation → Bool
  | evaluate o => o.input?.isNone && o.needsInput
  | _ => false

/-- The response to an invocation, given the standard input if there is one. -/
def respond (i : Invocation) (standardInput? : Option String) : Response :=
  match i with
  | evaluate o =>
    .ofOutcome <| if i.readsInput then { o with input? := standardInput? }.outcome else o.outcome
  | grammar => ⟨0, grammarText, ""⟩
  | version => ⟨0, versionText, ""⟩
  | help => ⟨0, usageText, ""⟩
  | misuse => ⟨2, "", usageText⟩

end Invocation

end Comprehension.CommandLine
