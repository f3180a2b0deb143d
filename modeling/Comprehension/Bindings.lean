import Comprehension.ParseError

/-!
# Bound names

A clause binds names to each entry: one name to the whole entry, several names to the items of an
entry that is an array.  A repeated name stands for its last position, so that a later binding hides
an earlier one.
-/

namespace Comprehension

/-- The names that a clause binds.  Walking keys binds at most one. -/
structure Bindings where
  iteration : Iteration
  names : List String
  length_le_one : iteration = .keys → names.length ≤ 1

/-- The last position of a name in a list. -/
def lastPosition? (name : String) : List String → Option Nat
  | [] => none
  | n :: ns =>
    match lastPosition? name ns with
    | some i => some (i + 1)
    | none => if n = name then some 0 else none

namespace Bindings

/-- The name that is bound when a clause names none. -/
def implicitName : String := "it"

/-- The bindings of a clause without names. -/
def implicit : Bindings := ⟨.implicit, [implicitName], by simp⟩

/-- The bindings of names, unless several of them are to be bound to a key. -/
def ofNames (iteration : Iteration) (names : List String) : Except ParseError Bindings :=
  if h : iteration = .keys → names.length ≤ 1 then .ok ⟨iteration, names, h⟩
  else .error (.severalKeyNames names)

/-- Whether the names are bound to the items of an entry and not to the entry. -/
def destructures (b : Bindings) : Bool := 1 < b.names.length

/-- The position of a name. -/
def position? (b : Bindings) (name : String) : Option Nat := lastPosition? name b.names

/-- Whether entries have to be arrays: several names are bound to an item of the source. -/
def unpacks (b : Bindings) : Bool := b.destructures && b.iteration.walksItems

end Bindings

theorem isSome_lastPosition?_iff {name : String} {ns : List String} :
    (lastPosition? name ns).isSome = true ↔ name ∈ ns := by
  induction ns with
  | nil => simp [lastPosition?]
  | cons n ns ih =>
    rw [lastPosition?, List.mem_cons, ← ih]
    cases lastPosition? name ns with
    | some i => simp
    | none =>
      by_cases h : n = name
      · simp [h]
      · simp [h, Ne.symm h]

end Comprehension
