/-!
# Kinds of iteration

A source is walked by its items, bound to the implicit name or to the names of the clause, or by its
keys.
-/

namespace Comprehension

/-- How a source is walked: by its items under the implicit name, by its items under the names of the
clause, or by its keys. -/
inductive Iteration
  | implicit
  | each
  | keys
  deriving DecidableEq

namespace Iteration

/-- The keyword of an iteration in clauses and messages. -/
def keyword : Iteration → String
  | implicit => "over"
  | each => "of"
  | keys => "in"

/-- Whether the items of an array are walked and not keys. -/
def walksItems : Iteration → Bool
  | keys => false
  | _ => true

end Iteration

end Comprehension
