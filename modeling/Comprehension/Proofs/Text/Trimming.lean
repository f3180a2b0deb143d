import Comprehension.Text.Blank
import Mathlib.Data.List.TakeWhile

/-!
# Trimming as a decomposition

A text is the concatenation of white space, its trimmed text and white space, and the trimmed text
is the only part that has no white space at either end (`trim_eq_iff`).  White space is one of the
classes of characters whose leading run a reader takes or drops.

## Main definitions

* `Blank`: texts of white space.
* `Trimmed`: texts without white space at either end.

## Main results

* `takeWhile_append_of_head`, `dropWhile_append_of_head`: where a leading run ends.
* `trim_eq_iff`: the trimmed text by decomposition.
* `trimStart_trimEnd`: the ends can be trimmed in either order.
-/

namespace Comprehension.Text

/-! ### Leading runs -/

section Run

variable {p : Char → Bool} {run rest : List Char}

/-- A leading run ends in front of a text that does not extend it. -/
theorem takeWhile_append_of_head (hrun : ∀ c ∈ run, p c = true)
    (hrest : ∀ c ∈ rest.head?, p c = false) : (run ++ rest).takeWhile p = run := by
  have hnil : rest.takeWhile p = [] := by
    cases rest with
    | nil => rfl
    | cons c rest => exact List.takeWhile_cons_of_neg (by simp [hrest c rfl])
  rw [List.takeWhile_append_of_pos hrun, hnil, List.append_nil]

theorem dropWhile_append_of_head (hrun : ∀ c ∈ run, p c = true)
    (hrest : ∀ c ∈ rest.head?, p c = false) : (run ++ rest).dropWhile p = rest := by
  rw [List.dropWhile_append_of_pos hrun]
  cases rest with
  | nil => rfl
  | cons c rest => exact List.dropWhile_cons_of_neg (by simp [hrest c rfl])

end Run

/-! ### White space at the ends -/

/-- A text is blank when it has white space only. -/
def Blank (cs : List Char) : Prop := ∀ c ∈ cs, isBlank c = true

instance (cs : List Char) : Decidable (Blank cs) := List.decidableBAll (isBlank · = true) cs

/-- A text is trimmed when neither its first nor its last character is white space. -/
structure Trimmed (cs : List Char) : Prop where
  head : ∀ c ∈ cs.head?, isBlank c = false
  last : ∀ c ∈ cs.getLast?, isBlank c = false

theorem blank_nil : Blank [] := fun _ h => absurd h List.not_mem_nil

theorem Blank.append {u v : List Char} (hu : Blank u) (hv : Blank v) : Blank (u ++ v) := by
  intro c hc
  rcases List.mem_append.mp hc with hc | hc
  · exact hu c hc
  · exact hv c hc

theorem Blank.trimStart_eq_nil {cs : List Char} (h : Blank cs) : trimStart cs = [] :=
  List.dropWhile_eq_nil_iff.mpr h

/-- The white space at the start of a text and what is left of it. -/
theorem exists_append_trimStart (cs : List Char) : ∃ u, Blank u ∧ cs = u ++ trimStart cs := by
  refine ⟨cs.takeWhile isBlank, ?_, List.takeWhile_append_dropWhile.symm⟩
  intro c hc
  exact List.mem_takeWhile_imp hc

/-- The white space at the end of a text and what is left of it. -/
theorem exists_trimEnd_append (cs : List Char) : ∃ v, Blank v ∧ cs = trimEnd cs ++ v := by
  obtain ⟨u, hu, h⟩ := exists_append_trimStart cs.reverse
  refine ⟨u.reverse, fun c hc => hu c (List.mem_reverse.mp hc), ?_⟩
  calc cs = cs.reverse.reverse := (List.reverse_reverse cs).symm
    _ = (u ++ trimStart cs.reverse).reverse := congrArg List.reverse h
    _ = trimEnd cs ++ u.reverse := List.reverse_append

theorem trimStart_eq_self {cs : List Char} (h : ∀ c ∈ cs.head?, isBlank c = false) :
    trimStart cs = cs :=
  dropWhile_append_of_head (List.forall_mem_nil _) h

theorem trimEnd_eq_self {cs : List Char} (h : ∀ c ∈ cs.getLast?, isBlank c = false) :
    trimEnd cs = cs := by
  rw [trimEnd, trimStart_eq_self, List.reverse_reverse]
  simpa only [List.head?_reverse] using h

/-- The last character of a trimmed end is no white space. -/
theorem getLast?_trimEnd {cs : List Char} {c : Char} (h : (trimEnd cs).getLast? = some c) :
    isBlank c = false := by
  rw [trimEnd, List.getLast?_reverse] at h
  exact head?_trimStart h

theorem trimmed_trim (cs : List Char) : Trimmed (trim cs) := by
  refine ⟨fun c hc => ?_, fun c hc => getLast?_trimEnd hc⟩
  obtain ⟨v, _, hv⟩ := exists_trimEnd_append (trimStart cs)
  have hstart : (trimStart cs).head? = some c := by
    rw [hv, List.head?_append, ← trim, Option.mem_def.mp hc, Option.some_or]
  exact head?_trimStart hstart

theorem exists_append_trim_append (cs : List Char) :
    ∃ u v, Blank u ∧ Blank v ∧ cs = u ++ trim cs ++ v := by
  obtain ⟨u, hu, hcs⟩ := exists_append_trimStart cs
  obtain ⟨v, hv, hend⟩ := exists_trimEnd_append (trimStart cs)
  refine ⟨u, v, hu, hv, ?_⟩
  rw [List.append_assoc, trim, ← hend, ← hcs]

@[simp] theorem trim_append_left {u : List Char} (hu : Blank u) (cs : List Char) :
    trim (u ++ cs) = trim cs := by
  rw [trim, trimStart_append_of_blank hu, trim]

/-- A trimmed text between white space is what trimming leaves. -/
theorem Trimmed.trim_eq {u v x : List Char} (hx : Trimmed x) (hu : Blank u) (hv : Blank v) :
    trim (u ++ x ++ v) = x := by
  rw [List.append_assoc, trim_append_left hu]
  cases x with
  | nil => rw [List.nil_append, trim, hv.trimStart_eq_nil]; rfl
  | cons c x =>
    have hstart : trimStart (c :: x ++ v) = c :: x ++ v := trimStart_eq_self hx.head
    rw [trim, hstart, trimEnd_append_of_blank hv, trimEnd_eq_self hx.last]

/-- The trimmed text is the part without white space at its ends between white space. -/
theorem trim_eq_iff {cs x : List Char} :
    trim cs = x ↔ Trimmed x ∧ ∃ u v, Blank u ∧ Blank v ∧ cs = u ++ x ++ v := by
  constructor
  · rintro rfl
    exact ⟨trimmed_trim cs, exists_append_trim_append cs⟩
  · rintro ⟨hx, u, v, hu, hv, rfl⟩
    exact hx.trim_eq hu hv

theorem Trimmed.trim_self {cs : List Char} (h : Trimmed cs) : trim cs = cs := by
  have hcs := h.trim_eq blank_nil blank_nil
  rwa [List.nil_append, List.append_nil] at hcs

@[simp] theorem trim_trim (cs : List Char) : trim (trim cs) = trim cs :=
  (trimmed_trim cs).trim_self

@[simp] theorem trim_append_right {v : List Char} (hv : Blank v) (cs : List Char) :
    trim (cs ++ v) = trim cs := by
  obtain ⟨u, w, hu, hw, hcs⟩ := exists_append_trim_append cs
  refine trim_eq_iff.mpr ⟨trimmed_trim cs, u, w ++ v, hu, hw.append hv, ?_⟩
  rw [← List.append_assoc, ← hcs]

@[simp] theorem trim_trimEnd (cs : List Char) : trim (trimEnd cs) = trim cs := by
  obtain ⟨v, hv, hcs⟩ := exists_trimEnd_append cs
  calc trim (trimEnd cs) = trim (trimEnd cs ++ v) := (trim_append_right hv _).symm
    _ = trim cs := by rw [← hcs]

theorem trim_eq_nil_iff {cs : List Char} : trim cs = [] ↔ Blank cs := by
  constructor
  · intro h
    obtain ⟨-, u, v, hu, hv, rfl⟩ := trim_eq_iff.mp h
    rw [List.append_nil]
    exact hu.append hv
  · intro h
    rw [trim, h.trimStart_eq_nil]
    rfl

/-- The end may be trimmed before the start. -/
theorem trimStart_trimEnd (cs : List Char) : trimStart (trimEnd cs) = trim cs := by
  obtain ⟨v, hv, hcs⟩ := exists_trimEnd_append cs
  obtain ⟨u, hu, hend⟩ := exists_append_trimStart (trimEnd cs)
  symm
  refine trim_eq_iff.mpr ⟨⟨fun c hc => head?_trimStart hc, fun c hc => ?_⟩, u, v, hu, hv, ?_⟩
  · have hlast : (trimEnd cs).getLast? = some c := by
      rw [hend, List.getLast?_append, Option.mem_def.mp hc, Option.some_or]
    exact getLast?_trimEnd hlast
  · rw [← hend, ← hcs]

/-- Trimming the start of a text that is trimmed at its end. -/
theorem trimStart_eq_trim {cs : List Char} (h : ∀ c ∈ cs.getLast?, isBlank c = false) :
    trimStart cs = trim cs := by
  rw [← trimStart_trimEnd, trimEnd_eq_self h]

/-! ### Texts after a part without white space at its end -/

/-- Trimming the end does not reach into a part whose last character is no white space. -/
theorem trimEnd_append {cs : List Char} (hcs : ∀ c ∈ cs.getLast?, isBlank c = false)
    (ds : List Char) : trimEnd (cs ++ ds) = cs ++ trimEnd ds := by
  obtain ⟨v, hv, hds⟩ := exists_trimEnd_append ds
  calc trimEnd (cs ++ ds) = trimEnd (cs ++ trimEnd ds ++ v) := by rw [List.append_assoc, ← hds]
    _ = trimEnd (cs ++ trimEnd ds) := trimEnd_append_of_blank hv _
    _ = cs ++ trimEnd ds := trimEnd_eq_self fun c hc => by
      rw [List.getLast?_append] at hc
      cases hlast : (trimEnd ds).getLast? with
      | none =>
        rw [hlast, Option.none_or] at hc
        exact hcs c hc
      | some d =>
        rw [hlast, Option.some_or] at hc
        obtain rfl := Option.some.inj hc
        exact getLast?_trimEnd hlast

/-- Trimming keeps a part without white space at its ends in front of the rest. -/
theorem Trimmed.trim_append {cs : List Char} (hcs : Trimmed cs) (h0 : cs ≠ []) (ds : List Char) :
    trim (cs ++ ds) = cs ++ trimEnd ds := by
  have hstart : trimStart (cs ++ ds) = cs ++ ds := by
    refine trimStart_eq_self fun c hc => hcs.head c ?_
    obtain ⟨d, cs, rfl⟩ := List.exists_cons_of_ne_nil h0
    exact hc
  rw [trim, hstart, trimEnd_append hcs.last]

/-- What is left of a trimmed text after a first part is trimmed at its end. -/
theorem Trimmed.trimStart_of_append {cs ds v : List Char} (h : Trimmed (cs ++ ds)) (hv : Blank v) :
    trimStart ds = trim (ds ++ v) := by
  rw [trim_append_right hv]
  refine trimStart_eq_trim fun c hc => h.last c ?_
  rw [List.getLast?_append, Option.mem_def.mp hc, Option.some_or]
  rfl

/-! ### Suffixes -/

theorem trimStart_suffix {cs ds : List Char} (h : cs <:+ ds) : trimStart cs <:+ trimStart ds := by
  obtain ⟨u, rfl⟩ := h
  induction u with
  | nil => exact List.suffix_rfl
  | cons c u ih =>
    by_cases hc : isBlank c = true
    · rwa [List.cons_append, trimStart, trimStart, List.dropWhile_cons_of_pos hc]
    · rw [List.cons_append, trimStart, trimStart, List.dropWhile_cons_of_neg hc]
      exact (List.dropWhile_suffix _).trans (List.suffix_append (c :: u) cs)

theorem trimEnd_suffix {cs ds : List Char} (h : cs <:+ ds) : trimEnd cs <:+ trimEnd ds := by
  obtain ⟨u, rfl⟩ := h
  rw [trimEnd, trimEnd, List.reverse_append, trimStart, trimStart, List.dropWhile_append]
  split
  · rename_i hnil
    rw [List.isEmpty_iff.mp hnil]
    exact List.nil_suffix
  · rw [List.reverse_append]
    exact List.suffix_append _ _

/-- Trimming keeps suffixes. -/
theorem trim_suffix {cs ds : List Char} (h : cs <:+ ds) : trim cs <:+ trim ds :=
  trimEnd_suffix (trimStart_suffix h)

end Comprehension.Text
