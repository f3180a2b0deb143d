import Comprehension.Reference
import Comprehension.Proofs.Text.Trimming

/-!
# Reading the longest reference

An identifier or a reference is read from a text exactly when the text is the written form followed
by a rest that does not extend it.  What is read is therefore determined by the text, and a
reference can be read back from any text in which its written form ends.

## Main definitions

* `Reference.IsWellFormed`: references whose parts are identifiers.
* `EndsReference`: texts that do not extend a reference in front of them.

## Main results

* `readReference_eq_some_iff`, `readReference_eq_none_iff`: what is read, and where nothing is.
-/

namespace Comprehension

/-! ### Identifiers -/

/-- A text does not extend an identifier in front of it. -/
def EndsIdentifier (cs : List Char) : Prop := ∀ c ∈ cs.head?, isIdentifierChar c = false

theorem isIdentifierChar_of_isIdentifierStart {c : Char} (h : isIdentifierStart c = true) :
    isIdentifierChar c = true := by
  simp only [isIdentifierChar, h, Bool.true_or]

/-- The first character of an identifier and the others. -/
theorem exists_cons_of_isIdentifier {name : List Char} (h : isIdentifier name = true) :
    ∃ c cs, name = c :: cs ∧ isIdentifierStart c = true ∧ ∀ d ∈ cs, isIdentifierChar d = true := by
  cases name with
  | nil => exact absurd h (by simp [isIdentifier])
  | cons c cs =>
    simp only [isIdentifier, Bool.and_eq_true, List.all_eq_true] at h
    exact ⟨c, cs, rfl, h.1, h.2⟩

theorem all_isIdentifierChar {name : List Char} (h : isIdentifier name = true) :
    ∀ c ∈ name, isIdentifierChar c = true := by
  obtain ⟨c, cs, rfl, hc, hcs⟩ := exists_cons_of_isIdentifier h
  intro d hd
  rcases List.mem_cons.mp hd with rfl | hd
  · exact isIdentifierChar_of_isIdentifierStart hc
  · exact hcs d hd

theorem endsIdentifier_of_readIdentifier {cs name rest : List Char}
    (h : readIdentifier cs = some (name, rest)) : EndsIdentifier rest := by
  cases cs with
  | nil => simp [readIdentifier] at h
  | cons c cs =>
    simp only [readIdentifier] at h
    split at h
    · simp only [Option.some.injEq, Prod.mk.injEq] at h
      obtain ⟨-, rfl⟩ := h
      intro d hd
      have hnot := List.head?_dropWhile_not isIdentifierChar cs
      rw [Option.mem_def.mp hd] at hnot
      simpa using hnot
    · simp at h

/-- An identifier is read back when the text after it does not extend it. -/
theorem readIdentifier_append {name rest : List Char} (hname : isIdentifier name = true)
    (hrest : EndsIdentifier rest) : readIdentifier (name ++ rest) = some (name, rest) := by
  obtain ⟨c, cs, rfl, hc, hcs⟩ := exists_cons_of_isIdentifier hname
  simp only [List.cons_append, readIdentifier, hc, if_true]
  rw [Text.takeWhile_append_of_head hcs hrest, Text.dropWhile_append_of_head hcs hrest]

theorem readIdentifier_eq_none_iff {cs : List Char} :
    readIdentifier cs = none ↔ ∀ c ∈ cs.head?, isIdentifierStart c = false := by
  cases cs with
  | nil => simp [readIdentifier]
  | cons c cs =>
    by_cases hc : isIdentifierStart c = true
    · simp [readIdentifier, hc]
    · simp [readIdentifier, hc]

/-! ### References -/

/-- A text does not extend a reference in front of it: it starts neither with a character of
identifiers nor with a dot and the start of one. -/
structure EndsReference (cs : List Char) : Prop where
  head : EndsIdentifier cs
  dot : ∀ more, cs = '.' :: more → ∀ c ∈ more.head?, isIdentifierStart c = false

/-- The parts of a well-formed reference are identifiers. -/
def Reference.IsWellFormed (r : Reference) : Prop :=
  ∀ part ∈ r.parts, isIdentifier part.toList = true

instance (r : Reference) : Decidable r.IsWellFormed :=
  inferInstanceAs (Decidable (∀ part ∈ r.parts, isIdentifier part.toList = true))

/-- The written form of member names, each after a dot. -/
def stepsText (names : List (List Char)) : List Char := names.flatMap ('.' :: ·)

theorem stepsText_cons (name : List Char) (names : List (List Char)) :
    stepsText (name :: names) = '.' :: name ++ stepsText names := rfl

theorem endsIdentifier_stepsText_append {names : List (List Char)} {rest : List Char}
    (hrest : EndsIdentifier rest) : EndsIdentifier (stepsText names ++ rest) := by
  cases names with
  | nil => exact hrest
  | cons name names =>
    intro c hc
    rw [stepsText_cons, List.cons_append, List.cons_append, List.head?_cons] at hc
    obtain rfl := Option.some.inj hc
    rfl

private theorem intercalate_dot (head : List Char) (names : List (List Char)) :
    ['.'].intercalate (head :: names) = head ++ stepsText names := by
  induction names generalizing head with
  | nil => rw [List.intercalate_singleton, stepsText, List.flatMap_nil, List.append_nil]
  | cons name names ih =>
    rw [List.intercalate_cons_cons, ih name, stepsText_cons, List.append_assoc]
    rfl

/-- A reference is written as its bound name and the names of its members, each after a dot. -/
theorem Reference.toList_raw (r : Reference) :
    r.raw.toList = r.head.toList ++ stepsText (r.tail.map String.toList) := by
  rw [Reference.raw, String.toList_intercalate]
  exact intercalate_dot r.head.toList (r.tail.map String.toList)

/-- Steps are read back when the text after them does not extend them. -/
theorem readSteps_append {names : List (List Char)} {rest : List Char}
    (hnames : ∀ name ∈ names, isIdentifier name = true) (hrest : EndsReference rest) :
    readSteps (stepsText names ++ rest) = (names, rest) := by
  induction names with
  | nil =>
    rw [stepsText, List.flatMap_nil, List.nil_append, readSteps.eq_def]
    split
    · rename_i more
      have hnone := readIdentifier_eq_none_iff.mpr (hrest.dot more rfl)
      split
      · rename_i h
        rw [hnone] at h
        exact absurd h (by simp)
      · rfl
    · rfl
  | cons name names ih =>
    have hname := hnames name List.mem_cons_self
    have hread : readIdentifier (name ++ (stepsText names ++ rest)) =
        some (name, stepsText names ++ rest) :=
      readIdentifier_append hname (endsIdentifier_stepsText_append hrest.head)
    have hsteps := ih fun n hn => hnames n (List.mem_cons_of_mem _ hn)
    rw [stepsText_cons, List.cons_append, List.cons_append, List.append_assoc, readSteps.eq_def]
    simp only
    split
    · rename_i h
      rw [hread] at h
      obtain ⟨rfl, rfl⟩ := Prod.mk.inj (Option.some.inj h)
      rw [hsteps]
    · rename_i h
      rw [hread] at h
      exact absurd h (by simp)

/-- Steps are identifiers after dots, and no character is lost. -/
theorem append_of_readSteps (cs : List Char) :
    (∀ name ∈ (readSteps cs).1, isIdentifier name = true) ∧
      cs = stepsText (readSteps cs).1 ++ (readSteps cs).2 := by
  fun_induction readSteps cs with
  | case1 more name rest h names rest' hsteps ih =>
    rw [hsteps] at ih
    refine ⟨fun n hn => ?_, ?_⟩
    · rcases List.mem_cons.mp hn with rfl | hn
      · exact isIdentifier_of_readIdentifier h
      · exact ih.1 n hn
    · rw [stepsText_cons, List.cons_append, List.cons_append, List.append_assoc, ← ih.2,
        append_of_readIdentifier h]
  | case2 more h => exact ⟨fun _ hn => absurd hn List.not_mem_nil, rfl⟩
  | case3 cs h => exact ⟨fun _ hn => absurd hn List.not_mem_nil, rfl⟩

/-- Reading steps stops only where the text does not extend them. -/
theorem endsReference_of_readSteps {cs : List Char} (hcs : EndsIdentifier cs) :
    EndsReference (readSteps cs).2 := by
  fun_induction readSteps cs with
  | case1 more name rest h names rest' hsteps ih =>
    rw [hsteps] at ih
    exact ih (endsIdentifier_of_readIdentifier h)
  | case2 more h =>
    refine ⟨hcs, fun more' hmore => ?_⟩
    obtain rfl : more = more' := (List.cons.inj hmore).2
    exact readIdentifier_eq_none_iff.mp h
  | case3 cs h => exact ⟨hcs, fun more hmore => absurd hmore (h more)⟩

/-- The longest reference that a text starts with. -/
theorem readReference_eq_some_iff {cs rest : List Char} {r : Reference} :
    readReference cs = some (r, rest) ↔
      r.IsWellFormed ∧ EndsReference rest ∧ cs = r.raw.toList ++ rest := by
  constructor
  · intro h
    simp only [readReference, Option.bind_eq_bind, Option.pure_def, Option.bind_eq_some_iff,
      Prod.exists, Option.some.injEq, Prod.mk.injEq] at h
    obtain ⟨head, more, hhead, rfl, rfl⟩ := h
    obtain ⟨hsteps, hmore⟩ := append_of_readSteps more
    refine ⟨fun part hpart => ?_, endsReference_of_readSteps
      (endsIdentifier_of_readIdentifier hhead), ?_⟩
    · rcases List.mem_cons.mp hpart with rfl | hpart
      · rw [String.toList_ofList]
        exact isIdentifier_of_readIdentifier hhead
      · obtain ⟨name, hname, rfl⟩ := List.mem_map.mp hpart
        rw [String.toList_ofList]
        exact hsteps name hname
    · have hmap : ((readSteps more).1.map String.ofList).map String.toList =
          (readSteps more).1 := by
        rw [List.map_map]
        exact List.map_id'' (fun _ => String.toList_ofList) _
      rw [Reference.toList_raw, hmap, String.toList_ofList, List.append_assoc, ← hmore,
        append_of_readIdentifier hhead]
  · rintro ⟨hr, hrest, rfl⟩
    have hhead : isIdentifier r.head.toList = true := hr _ List.mem_cons_self
    have htail : ∀ name ∈ r.tail.map String.toList, isIdentifier name = true := by
      intro name hname
      obtain ⟨part, hpart, rfl⟩ := List.mem_map.mp hname
      exact hr part (List.mem_cons_of_mem _ hpart)
    have hmap : (r.tail.map String.toList).map String.ofList = r.tail := by
      rw [List.map_map]
      exact List.map_id'' (fun _ => String.ofList_toList) _
    rw [readReference, Reference.toList_raw, List.append_assoc,
      readIdentifier_append hhead (endsIdentifier_stepsText_append hrest.head)]
    simp only [Option.bind_eq_bind, Option.bind_some, readSteps_append htail hrest, Option.pure_def,
      hmap, String.ofList_toList]

/-- No reference is read exactly where the text starts with none. -/
theorem readReference_eq_none_iff {cs : List Char} :
    readReference cs = none ↔ ∀ r : Reference, r.IsWellFormed → ¬ r.raw.toList <+: cs := by
  constructor
  · rintro h r hr ⟨rest, rfl⟩
    obtain ⟨c, name, hhead, hc, -⟩ := exists_cons_of_isIdentifier (hr r.head List.mem_cons_self)
    have hread : readIdentifier (r.raw.toList ++ rest) = none := by
      rw [readReference] at h
      cases hid : readIdentifier (r.raw.toList ++ rest) with
      | none => rfl
      | some p => simp [hid] at h
    rw [Reference.toList_raw, hhead, List.append_assoc, List.cons_append] at hread
    have hstart := readIdentifier_eq_none_iff.mp hread c rfl
    rw [hc] at hstart
    exact absurd hstart (by simp)
  · intro h
    cases hread : readReference cs with
    | none => rfl
    | some p =>
      obtain ⟨hr, -, hcs⟩ := readReference_eq_some_iff.mp hread
      exact absurd ⟨p.2, hcs.symm⟩ (h p.1 hr)

end Comprehension
