/-!
# Cutting a text at a marker

Occurrences of the marker are taken from left to right and do not overlap.  `split` gives the
pieces between them and `occurrences` counts them without building a piece.
-/

namespace Comprehension.Text

variable (marker : List Char)

/-- The pieces of a text whose first `skip` characters belong to an occurrence already taken. -/
def pieces : Nat → List Char → List (List Char)
  | _, [] => [[]]
  | skip + 1, _ :: cs => pieces skip cs
  | 0, c :: cs =>
    if marker.isPrefixOf (c :: cs) then [] :: pieces (marker.length - 1) cs
    else (pieces 0 cs).modifyHead (c :: ·)

/-- The pieces of a text between the occurrences of the marker.  The empty marker occurs before
and after every character. -/
def split (cs : List Char) : List (List Char) :=
  if marker.isEmpty then [] :: (cs.map ([·]) ++ [[]]) else pieces marker 0 cs

/-- The number of occurrences of a nonempty marker in a text whose first `skip` characters belong
to an occurrence already counted. -/
def occurrencesFrom : Nat → List Char → Nat
  | _, [] => 0
  | skip + 1, _ :: cs => occurrencesFrom skip cs
  | 0, c :: cs =>
    if marker.isPrefixOf (c :: cs) then occurrencesFrom (marker.length - 1) cs + 1
    else occurrencesFrom 0 cs

/-- The number of occurrences of a nonempty marker in a text. -/
def occurrences (cs : List Char) : Nat := occurrencesFrom marker 0 cs

theorem pieces_eq_drop (skip : Nat) (cs : List Char) :
    pieces marker skip cs = pieces marker 0 (cs.drop skip) := by
  induction cs generalizing skip with
  | nil => simp [pieces]
  | cons c cs ih =>
    cases skip with
    | zero => rfl
    | succ skip => simpa [pieces] using ih skip

theorem length_pieces (skip : Nat) (cs : List Char) :
    (pieces marker skip cs).length = occurrencesFrom marker skip cs + 1 := by
  induction cs generalizing skip with
  | nil => simp [pieces, occurrencesFrom]
  | cons c cs ih =>
    cases skip with
    | zero =>
      simp only [pieces, occurrencesFrom]
      split
      · simp [ih]
      · simp [ih]
    | succ skip => simpa [pieces, occurrencesFrom] using ih skip

/-- A nonempty marker cuts a text into one more piece than it occurs. -/
theorem length_split {marker : List Char} (h : marker ≠ []) (cs : List Char) :
    (split marker cs).length = occurrences marker cs + 1 := by
  simp [split, occurrences, h, length_pieces]

end Comprehension.Text
