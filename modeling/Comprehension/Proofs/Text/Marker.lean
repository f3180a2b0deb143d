import Comprehension.Text.Marker
import Mathlib.Data.List.Infix

/-!
# Cutting a text at a marker is undoing its joins

The pieces between the occurrences of a marker give the text again when they are joined by the
marker, and no piece contains it.  For a marker whose first character does not occur in it again
this determines the pieces, and the number of occurrences is the number of places where the marker
stands.

## Main definitions

* `places`: the number of places where a marker stands in a text.

## Main results

* `intercalate_pieces`, `not_infix_of_mem_pieces`, `pieces_intercalate`: pieces and joins.
* `occurrences_eq_places`: occurrences are counted without overlap, and none overlap.
-/

namespace Comprehension.Text

/-- The number of places where a marker stands in a text. -/
def places (marker cs : List Char) : Nat := cs.tails.countP marker.isPrefixOf

variable {marker : List Char}

theorem split_eq_pieces (h : marker ≠ []) (cs : List Char) :
    split marker cs = pieces marker 0 cs := by
  rw [split, List.isEmpty_eq_false_iff.mpr h, if_neg Bool.false_ne_true]

theorem pieces_ne_nil (marker : List Char) (skip : Nat) (cs : List Char) :
    pieces marker skip cs ≠ [] :=
  List.ne_nil_of_length_eq_add_one (length_pieces marker skip cs)

/-- A marker in front of a text cuts off an empty piece. -/
theorem pieces_marker_append (h : marker ≠ []) (cs : List Char) :
    pieces marker 0 (marker ++ cs) = [] :: pieces marker 0 cs := by
  obtain ⟨m, ms, rfl⟩ := List.exists_cons_of_ne_nil h
  have hprefix : (m :: ms).isPrefixOf (m :: (ms ++ cs)) = true :=
    List.isPrefixOf_iff_prefix.mpr (List.prefix_append (m :: ms) cs)
  rw [List.cons_append, pieces, if_pos hprefix, pieces_eq_drop, List.length_cons,
    Nat.add_sub_cancel, List.drop_left]

/-- A character with which no marker starts belongs to the first piece. -/
theorem pieces_cons {c : Char} {cs : List Char} (h : ¬ marker <+: c :: cs) :
    pieces marker 0 (c :: cs) = (pieces marker 0 cs).modifyHead (c :: ·) := by
  rw [pieces, if_neg (by rwa [List.isPrefixOf_iff_prefix])]

/-- A text is read as a marker in front of a text or as a character with which no marker starts. -/
theorem pieces_induction {motive : List Char → Prop} (h : marker ≠ []) (nil : motive [])
    (append : ∀ cs, motive cs → motive (marker ++ cs))
    (cons : ∀ c cs, ¬ marker <+: c :: cs → motive cs → motive (c :: cs)) (cs : List Char) :
    motive cs := by
  induction hn : cs.length using Nat.strong_induction_on generalizing cs with
  | _ n ih =>
    subst hn
    cases cs with
    | nil => exact nil
    | cons c cs =>
      by_cases hprefix : marker <+: c :: cs
      · obtain ⟨rest, hrest⟩ := hprefix
        have hlength := congrArg List.length hrest
        have hpos := List.length_pos_iff.mpr h
        rw [List.length_append] at hlength
        rw [← hrest]
        exact append rest (ih rest.length (by omega) rest rfl)
      · exact cons c cs hprefix (ih cs.length (Nat.lt_succ_self _) cs rfl)

/-- The pieces of a text joined by the marker are the text. -/
theorem intercalate_pieces (h : marker ≠ []) (cs : List Char) :
    marker.intercalate (pieces marker 0 cs) = cs := by
  induction cs using pieces_induction h with
  | nil => rfl
  | append cs ih =>
    obtain ⟨p, ps, hps⟩ := List.exists_cons_of_ne_nil (pieces_ne_nil marker 0 cs)
    rw [pieces_marker_append h, hps, List.intercalate_cons_cons, ← hps, ih, List.nil_append]
  | cons c cs hprefix ih =>
    obtain ⟨p, ps, hps⟩ := List.exists_cons_of_ne_nil (pieces_ne_nil marker 0 cs)
    rw [hps] at ih
    rw [pieces_cons hprefix, hps, List.modifyHead_cons, ← ih]
    cases ps with
    | nil => rw [List.intercalate_singleton, List.intercalate_singleton]
    | cons q ps => rfl

/-- The first piece of a text is the start of the text. -/
theorem head?_pieces_prefix (h : marker ≠ []) (cs : List Char) :
    ∀ p ∈ (pieces marker 0 cs).head?, p <+: cs := by
  intro p hp
  obtain ⟨ps, hps⟩ := List.head?_eq_some_iff.mp hp
  have hjoin := intercalate_pieces h cs
  rw [hps] at hjoin
  rw [← hjoin]
  cases ps with
  | nil => rw [List.intercalate_singleton]
  | cons q ps =>
    rw [List.intercalate_cons_cons, List.append_assoc]
    exact List.prefix_append p _

/-- No piece contains the marker. -/
theorem not_infix_of_mem_pieces (h : marker ≠ []) (cs : List Char) :
    ∀ p ∈ pieces marker 0 cs, ¬ marker <:+: p := by
  have hnil : ¬ marker <:+: [] := fun hinfix => h (List.infix_nil.mp hinfix)
  induction cs using pieces_induction h with
  | nil => exact fun p hp => List.mem_singleton.mp hp ▸ hnil
  | append cs ih =>
    rw [pieces_marker_append h]
    intro p hp
    rcases List.mem_cons.mp hp with rfl | hp
    · exact hnil
    · exact ih p hp
  | cons c cs hprefix ih =>
    obtain ⟨q, ps, hps⟩ := List.exists_cons_of_ne_nil (pieces_ne_nil marker 0 cs)
    have hq : q <+: cs := head?_pieces_prefix h cs q (by rw [hps]; rfl)
    rw [hps] at ih
    rw [pieces_cons hprefix, hps, List.modifyHead_cons]
    intro p hp
    rcases List.mem_cons.mp hp with rfl | hp
    · intro hinfix
      rcases List.infix_cons_iff.mp hinfix with hstart | hinfix
      · exact hprefix (hstart.trans (List.cons_prefix_cons.mpr ⟨rfl, hq⟩))
      · exact ih q List.mem_cons_self hinfix
    · exact ih p (List.mem_cons_of_mem q hp)

/-- A text that does not contain the marker is its only piece. -/
theorem pieces_eq_singleton {p : List Char} (h : ¬ marker <:+: p) : pieces marker 0 p = [p] := by
  induction p with
  | nil => rfl
  | cons c p ih =>
    rw [List.infix_cons_iff, not_or] at h
    rw [pieces_cons h.1, ih h.2, List.modifyHead_cons]

/-! ### Markers that do not overlap themselves -/

section Disjoint

variable {m : Char} {ms : List Char}

/-- A marker in front of a text with a marker behind a piece starts within the piece. -/
theorem prefix_of_prefix_append (hm : m ∉ ms) {p cs : List Char} (hp : p ≠ [])
    (h : m :: ms <+: p ++ (m :: ms ++ cs)) : m :: ms <+: p := by
  rcases List.prefix_or_prefix_of_prefix h (List.prefix_append p _) with hprefix | hprefix
  · exact hprefix
  · -- The piece is a shorter start of the marker, so that the next marker starts in this one.
    obtain ⟨rest, hrest⟩ := hprefix
    cases rest with
    | nil => rw [List.append_nil] at hrest; rw [hrest]
    | cons d rest =>
      have hnext : p ++ d :: rest <+: p ++ m :: (ms ++ cs) := hrest.symm ▸ h
      obtain ⟨rfl, -⟩ := List.cons_prefix_cons.mp ((List.prefix_append_right_inj p).mp hnext)
      obtain ⟨c, p, rfl⟩ := List.exists_cons_of_ne_nil hp
      obtain ⟨-, hms⟩ := List.cons.inj hrest
      exact absurd (hms ▸ List.mem_append_right p List.mem_cons_self) hm

/-- A piece is cut off in front of the marker behind it. -/
theorem pieces_append_marker (hm : m ∉ ms) {p : List Char} (hp : ¬ m :: ms <:+: p)
    (cs : List Char) : pieces (m :: ms) 0 (p ++ (m :: ms ++ cs)) = p :: pieces (m :: ms) 0 cs := by
  induction p with
  | nil => exact pieces_marker_append (List.cons_ne_nil m ms) cs
  | cons c p ih =>
    have hprefix : ¬ m :: ms <+: c :: (p ++ (m :: ms ++ cs)) := fun h =>
      hp (prefix_of_prefix_append hm (List.cons_ne_nil c p) h).isInfix
    have hrest : ¬ m :: ms <:+: p := fun h => hp (List.infix_cons_iff.mpr (Or.inr h))
    rw [List.cons_append, pieces_cons hprefix, ih hrest, List.modifyHead_cons]

/-- Joining pieces without a marker in them is undone by cutting. -/
theorem pieces_intercalate (hm : m ∉ ms) {ps : List (List Char)} (hne : ps ≠ [])
    (hps : ∀ p ∈ ps, ¬ m :: ms <:+: p) :
    pieces (m :: ms) 0 ((m :: ms).intercalate ps) = ps := by
  induction ps with
  | nil => exact absurd rfl hne
  | cons p ps ih =>
    obtain ⟨hp, hps⟩ := List.forall_mem_cons.mp hps
    cases ps with
    | nil => rw [List.intercalate_singleton, pieces_eq_singleton hp]
    | cons q ps =>
      rw [List.intercalate_cons_cons, List.append_assoc, pieces_append_marker hm hp,
        ih (List.cons_ne_nil q ps) hps]

/-! ### Counting -/

theorem places_cons (marker : List Char) (c : Char) (cs : List Char) :
    places marker (c :: cs) =
      places marker cs + if marker.isPrefixOf (c :: cs) then 1 else 0 := by
  rw [places, List.tails_cons, List.countP_cons, places]

/-- No marker starts in a text without its first character. -/
theorem places_append_of_not_mem {us : List Char} (hm : m ∉ us) (cs : List Char) :
    places (m :: ms) (us ++ cs) = places (m :: ms) cs := by
  induction us with
  | nil => rfl
  | cons c us ih =>
    rw [List.mem_cons, not_or] at hm
    have hstart : (m :: ms).isPrefixOf (c :: (us ++ cs)) = false := by
      rw [List.isPrefixOf_cons_cons, beq_false_of_ne hm.1, Bool.false_and]
    rw [List.cons_append, places_cons, hstart, if_neg Bool.false_ne_true, Nat.add_zero, ih hm.2]

/-- The occurrences that are counted are all places where the marker stands. -/
theorem occurrences_eq_places (hm : m ∉ ms) (cs : List Char) :
    occurrences (m :: ms) cs = places (m :: ms) cs := by
  have hlength (cs : List Char) :
      (pieces (m :: ms) 0 cs).length = occurrences (m :: ms) cs + 1 := length_pieces _ 0 cs
  induction cs using pieces_induction (List.cons_ne_nil m ms) with
  | nil => rfl
  | append cs ih =>
    have hstart : (m :: ms).isPrefixOf (m :: (ms ++ cs)) = true :=
      List.isPrefixOf_iff_prefix.mpr (List.prefix_append (m :: ms) cs)
    have hcount := hlength (m :: ms ++ cs)
    rw [pieces_marker_append (List.cons_ne_nil m ms), List.length_cons, hlength] at hcount
    rw [List.cons_append, places_cons, if_pos hstart, places_append_of_not_mem hm, ← ih]
    exact (Nat.succ.inj hcount).symm
  | cons c cs hprefix ih =>
    have hstart : (m :: ms).isPrefixOf (c :: cs) = false := by
      rwa [← Bool.not_eq_true, List.isPrefixOf_iff_prefix]
    have hcount := hlength (c :: cs)
    rw [pieces_cons hprefix, List.length_modifyHead, hlength] at hcount
    rw [places_cons, hstart, if_neg Bool.false_ne_true, Nat.add_zero, ← ih]
    exact (Nat.succ.inj hcount).symm

end Disjoint

end Comprehension.Text
