import Comprehension.ParseError

/-!
# Errors of evaluating a comprehension

Evaluation fails at an entry that cannot be unpacked, at a key that is neither a string nor a
number, or when a function rejects the entry.  `Failure` joins these with the errors of reading.
-/

namespace Comprehension

/-- Why an entry has no key or no value. -/
inductive EvalError
  | cannotUnpack (entry : String) (names : List String)
  | invalidKey (kind : Kind)
  | rejected (message : String)
  deriving DecidableEq

/-- The message of an error. -/
def EvalError.message : EvalError → String
  | cannotUnpack entry names => "cannot unpack " ++ entry ++ " into fields " ++ nameList names
  | invalidKey kind => "key must be either a string or a number, not a(n) " ++ kind.name
  | rejected message => "interpolated function failed: " ++ message

/-- Why a template has no result. -/
inductive Failure
  | parse (e : ParseError)
  | evaluation (e : EvalError)
  deriving DecidableEq

/-- The message of a failure. -/
def Failure.message : Failure → String
  | parse e => "parse error: " ++ e.message
  | evaluation e => "evaluation error: " ++ e.message

end Comprehension
