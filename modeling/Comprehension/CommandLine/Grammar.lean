/-!
# The grammar reference

The text that the command line shows about the language of comprehensions.
-/

namespace Comprehension.CommandLine

/-- The reference text. -/
def grammarText : String :=
  "OBJECT COMPREHENSIONS

A comprehension builds a JSON object from a source array or object:

  \x7bkey: value <iteration> $\x7b\x7d\x7d

Each $\x7b\x7d in the expression is a slot filled with a JSON value. Slots are
taken from --slot in order; the last one (the source) comes from --input or
stdin.

GRAMMAR

  expr       := \"\x7b\"* key \":\" value iteration SLOT \"\x7d\"*
  key        := reference | SLOT
  value      := reference | SLOT
  reference  := IDENT (\".\" IDENT)*
  iteration  := \"over\"
              | \"for\" IDENT (\",\" IDENT)* (\"of\" | \"in\")

ITERATION

  over $\x7b\x7d              each array item, bound to `it`
  for x of $\x7b\x7d          each array item, bound to `x`
  for k, v of $\x7b\x7d       each array item, destructured by position
  for k in $\x7b\x7d          each key of an object (indices of an array)

KEYS

  Keys must be strings or numbers. When two entries produce the same key,
  the later one wins. Missing fields in a value are left out of the output.

EXAMPLES

  echo '[\x7b\"name\":\"Aidan\",\"age\":20\x7d]' | objcomp eval '\x7bit.name: it.age over $\x7b\x7d\x7d'
  => \x7b\"Aidan\":20\x7d

  objcomp eval '\x7bk: v for k, v of $\x7b\x7d\x7d' --input '[[\"a\",1],[\"b\",2]]'
  => \x7b\"a\":1,\"b\":2\x7d

  objcomp eval '\x7bit.name: $\x7b\x7d over $\x7b\x7d\x7d' --slot true --input '[\x7b\"name\":\"x\"\x7d]'
  => \x7b\"x\":true\x7d

  objcomp eval '\x7bk: k for k in $\x7b\x7d\x7d' --input '\x7b\"a\":1,\"b\":2\x7d'
  => \x7b\"a\":\"a\",\"b\":\"b\"\x7d
"

end Comprehension.CommandLine
