import Comprehension.Proofs.Written

/-!
# What each step of reading refuses

A step of reading starts at the cursor before a stream.  For each step a relation says, on the
stream alone, what the step refuses and with which error, and the step fails exactly in this way.
Together with the lemmas on success, every step is then known in full.

## Main definitions

* `unread`: the text that a step starts with.
* `OperandFault`, `SourceFault`, `EndFault`, `NameFault`: what is wrong with an operand, a source,
  the end of a template and the name of a reference.

## Main results

* `Cursor.readOperand_before_eq_error_iff`, `Cursor.readColon_before_eq_error_iff`,
  `Cursor.readEntries_before_eq_error_iff`, `Cursor.readEnd_before_eq_error_iff`,
  `Provider.bind_eq_error_iff`: the steps fail exactly with these faults.
-/

namespace Comprehension

open Text

/-- The text before the next slot of a stream, without the white space at its ends. -/
def unread (s : List Symbol) : List Char := trim (leadingText s)

/-- What is wrong with an operand: nothing is left, a key slot is null or undefined, or the text
starts with no reference. -/
inductive OperandFault (half : Half) : List Symbol → ParseError → Prop
  | absent {w : List Char} : Blank w → OperandFault half (symbols w) (.missing half)
  | nullish {w : List Char} {x : Slot} {s : List Symbol} :
      half = .key → Blank w → x = .value .null ∨ x = .value .undefined →
      OperandFault half (symbols w ++ .slot x :: s) (.missing half)
  | unreadable {s : List Symbol} :
      unread s ≠ [] → (∀ r : Reference, r.IsWellFormed → ¬ r.raw.toList <+: unread s) →
      OperandFault half s (.invalidReference half (String.ofList (unread s)))

/-- What is wrong with a source: there is no slot, or its value has no entries. -/
inductive SourceFault (iteration : Iteration) : List Symbol → ParseError → Prop
  | absent : SourceFault iteration [] (.invalidSource iteration none)
  | unwalkable {x : Slot} {s : List Symbol} :
      (∀ entries, ¬ EntriesOf iteration x entries) →
      SourceFault iteration (.slot x :: s) (.invalidSource iteration (some x.kind))

/-- What is wrong with the end of a template: a text after the closing braces or, where there is
none, a slot. -/
inductive EndFault : List Symbol → ParseError → Prop
  | text {s : List Symbol} {cs rest : List Char} {c : Char} :
      unread s = cs ++ c :: rest → (∀ d ∈ cs, d = '}' ∨ isBlank d = true) →
      ¬ (c = '}' ∨ isBlank c = true) → EndFault s (.trailingText (String.ofList (c :: rest)))
  | slot {cs : List Char} {x : Slot} {s : List Symbol} :
      (∀ d ∈ cs, d = '}' ∨ isBlank d = true) →
      EndFault (symbols cs ++ .slot x :: s) (.extraSlot x.kind)

/-- What is wrong with the name of a reference: it is not bound, or it is bound to a key, which has
no members. -/
inductive NameFault (iteration : Iteration) (names : List String) : Operand → ParseError → Prop
  | unbound {r : Reference} :
      r.head ∉ names → NameFault iteration names (.reference r) (.unknownName r.head names)
  | traversal {r : Reference} :
      r.head ∈ names → iteration = .keys → r.tail ≠ [] →
      NameFault iteration names (.reference r) (.keyTraversal r.raw)

namespace Cursor

theorem text_before (s : List Symbol) : (before s).text = unread s := rfl

theorem takeSlot?_before_eq_none_iff {s : List Symbol} :
    (before s).takeSlot? = none ↔ s = symbols (leadingText s) := by
  rw [takeSlot?]
  constructor
  · intro h
    split at h
    · rename_i hahead
      exact eq_symbols_of_slotsAhead_eq_nil hahead
    · exact absurd h (by simp)
  · intro h
    have hahead : (before s).ahead = [] := by
      rw [before, h]
      exact slotsAhead_symbols _
    rw [hahead]

/-- An operand is refused exactly where something is wrong with it. -/
theorem readOperand_before_eq_error_iff {half : Half} {s : List Symbol} {e : ParseError} :
    (before s).readOperand half = .error e ↔ OperandFault half s e := by
  constructor
  · intro h
    rw [readOperand] at h
    split at h
    · rename_i hempty
      have hblank : Blank (leadingText s) := trim_eq_nil_iff.mp hempty
      split at h
      · rename_i hslot
        obtain rfl := Except.error.inj h
        rw [takeSlot?_before_eq_none_iff.mp hslot]
        exact .absent hblank
      · rename_i x c hslot
        split at h
        · rename_i hnullish
          obtain rfl := Except.error.inj h
          obtain ⟨cs, s', rfl, -⟩ := takeSlot?_before_eq_some_iff.mp hslot
          rw [leadingText_symbols_append, leadingText_slot, List.append_nil] at hblank
          exact .nullish hnullish.1 hblank (Slot.isNullish_iff.mp hnullish.2)
        · exact absurd h (by simp)
    · rename_i hne
      split at h
      · rename_i hread
        obtain rfl := Except.error.inj h
        exact .unreadable hne (readReference_eq_none_iff.mp hread)
      · exact absurd h (by simp)
  · rintro (@⟨w, hw⟩ | @⟨w, x, s, rfl, hw, hx⟩ | ⟨hne, hread⟩)
    · have htext : (before (symbols w)).text = [] := by
        rw [before, leadingText_symbols, trim_eq_nil_iff.mpr hw]
      have hslot : (before (symbols w)).takeSlot? = none :=
        takeSlot?_before_eq_none_iff.mpr (congrArg symbols (leadingText_symbols w).symm)
      rw [readOperand, if_pos htext, hslot]
    · have htext : (before (.slot x :: s)).text = [] := rfl
      rw [before_symbols_append hw, readOperand, if_pos htext, takeSlot?_before_slot]
      simp only [Slot.isNullish_iff.mpr hx, and_self, if_true]
    · rw [readOperand, text_before, if_neg hne, readReference_eq_none_iff.mpr hread]

/-- The colon is missed exactly where the text does not start with it. -/
theorem readColon_before_eq_error_iff {s : List Symbol} {e : ParseError} :
    (before s).readColon = .error e ↔
      (unread s).head? ≠ some ':' ∧ e = .missingColon (String.ofList (unread s)) := by
  rw [readColon, text_before]
  split
  · rename_i htext
    simp [htext]
  · rename_i hcolon
    have hhead : (unread s).head? ≠ some ':' := by
      intro h
      obtain ⟨rest, hrest⟩ := List.head?_eq_some_iff.mp h
      exact hcolon rest hrest
    simp only [Except.error.injEq, hhead, ne_eq, not_false_eq_true, true_and]
    exact eq_comm

end Cursor

/-- A text that is no clause is refused as a whole. -/
theorem readClause_eq_error {cs : List Char}
    (h : ∀ iteration names, ¬ ClauseText iteration names cs) :
    readClause cs = .error (.invalidIteration (String.ofList cs)) := by
  have hover : cs ≠ "over".toList := by
    rintro rfl
    exact h _ _ .implicit
  have hfor : forClause? cs = none := by
    cases hcs : forClause? cs with
    | none => rfl
    | some p => exact absurd (forClause?_eq_some_iff.mp hcs).2 (h _ _)
  rw [readClause, if_neg hover, hfor]

namespace Cursor

/-- A source is refused exactly where something is wrong with it. -/
theorem readEntries_before_eq_error_iff {iteration : Iteration} {s : List Symbol} {e : ParseError}
    (hs : leadingText s = []) :
    (before s).readEntries iteration = .error e ↔ SourceFault iteration s e := by
  cases s with
  | nil =>
    constructor
    · intro h
      obtain rfl := Except.error.inj h
      exact .absent
    · rintro ⟨⟩
      rfl
  | cons y s =>
    cases y with
    | char c => exact absurd hs (List.cons_ne_nil _ _)
    | slot x =>
      have hread : (before (.slot x :: s)).readEntries iteration =
          Entries.ofSlot iteration x >>= fun entries => .ok (entries, before s) := by
        rw [readEntries, takeSlot?_before_slot]
        rfl
      rw [hread, except_bind_eq_error_iff, Entries.ofSlot_eq_error_iff]
      constructor
      · rintro (⟨hnone, rfl⟩ | ⟨entries, -, h⟩)
        · exact .unwalkable hnone
        · exact absurd h (by simp)
      · rintro (_ | hnone)
        exact Or.inl ⟨hnone, rfl⟩

/-- The end of a template is refused exactly where something is wrong with it. -/
theorem readEnd_before_eq_error_iff {s : List Symbol} {e : ParseError} :
    (before s).readEnd = .error e ↔ EndFault s e := by
  constructor
  · intro h
    rw [readEnd, text_before] at h
    split at h
    · rename_i c rest hdrop
      obtain rfl := Except.error.inj h
      have hc := List.head?_dropWhile_not isClosing (unread s)
      have happend : (unread s).takeWhile isClosing ++ (unread s).dropWhile isClosing = unread s :=
        List.takeWhile_append_dropWhile
      rw [hdrop] at hc happend
      refine .text happend.symm (fun d hd => isClosing_iff.mp (List.mem_takeWhile_imp hd))
        fun hclosing => ?_
      rw [← isClosing_iff] at hclosing
      exact absurd hclosing (by simpa using hc)
    · rename_i x segment ahead hdrop hahead
      obtain rfl := Except.error.inj h
      obtain ⟨s', hs, -, -⟩ := exists_of_slotsAhead_eq_cons hahead
      have htext := forall_isClosing_trim_iff.mp (List.dropWhile_eq_nil_iff.mp hdrop)
      rw [hs]
      exact .slot fun d hd => isClosing_iff.mp (htext d hd)
    · exact absurd h (by simp)
  · rintro (⟨htext, hcs, hc⟩ | @⟨cs, x, s, hcs⟩)
    · rename_i cs rest c
      have hdrop : (before s).text.dropWhile isClosing = c :: rest := by
        rw [text_before, htext]
        refine dropWhile_append_of_head (fun d hd => isClosing_iff.mpr (hcs d hd)) fun d hd => ?_
        obtain rfl := Option.some.inj hd
        rw [← isClosing_iff] at hc
        simpa using hc
      rw [readEnd, hdrop]
    · have hdrop : (before (symbols cs ++ .slot x :: s)).text.dropWhile isClosing = [] := by
        rw [before, List.dropWhile_eq_nil_iff, forall_isClosing_trim_iff,
          leadingText_symbols_append, leadingText_slot, List.append_nil]
        exact fun d hd => isClosing_iff.mpr (hcs d hd)
      have hahead : (before (symbols cs ++ .slot x :: s)).ahead =
          (x, String.ofList (leadingText s)) :: slotsAhead s := by
        rw [before, slotsAhead_symbols_append, slotsAhead_slot]
      rw [readEnd, hdrop, hahead]

end Cursor

/-- A reference is refused exactly where something is wrong with its name. -/
theorem Provider.bind_eq_error_iff {b : Bindings} {o : Operand} {e : ParseError} :
    Provider.bind b o = .error e ↔ NameFault b.iteration b.names o e := by
  constructor
  · intro h
    unfold Provider.bind at h
    split at h
    · exact absurd h (by simp)
    · exact absurd h (by simp)
    · rename_i r
      split at h
      · rename_i hnone
        obtain rfl := Except.error.inj h
        exact .unbound (lastPosition?_eq_none_iff.mp hnone)
      · rename_i i hsome
        split at h
        · rename_i hpath
          obtain rfl := Except.error.inj h
          obtain ⟨hmem, -⟩ := lastPosition?_eq_some_iff.mp hsome
          exact .traversal (List.mem_of_getElem? hmem) hpath.1 hpath.2
        · exact absurd h (by simp)
  · rintro (hnot | @⟨r, hmem, hkeys, htail⟩)
    · rw [Provider.bind, Bindings.position?, lastPosition?_eq_none_iff.mpr hnot]
    · cases hsome : b.position? r.head with
      | none => exact absurd hmem (lastPosition?_eq_none_iff.mp hsome)
      | some i =>
        rw [Provider.bind, hsome]
        simp only
        rw [if_pos ⟨hkeys, htail⟩]

end Comprehension
