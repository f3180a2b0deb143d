import Comprehension.Proofs.Clause

/-!
# The reference that a text starts with

The grammar of names and references is given once more without a reader: a name is a letter of
ASCII, an underscore or a dollar sign with such characters, digits and hyphens after it, and a
reference is names with dots between them.  What is read from a text is the longest reference that
the text starts with.  It is cut into its parts at its dots, and it is read again from its own text
and in front of everything that does not extend it.

## Main definitions

* `NameText`, `ReferenceText`: the written forms of names and references.

## Main results

* `ReferenceText.toNat_lt`: references are texts of ASCII.
* `referenceText_iff`: the written forms are those of the references whose parts are identifiers.
* `Reference.prefix_raw_of_ofText?`: no longer reference starts the text.
* `Reference.splitOn_raw`: cutting the text of a reference at its dots gives its parts.
* `Reference.ofText?_longest`: what is read from a text, and what is read again.
-/

namespace Comprehension

/-! ### The grammar -/

/-- A letter of ASCII, an underscore or a dollar sign. -/
def NameStart (c : Char) : Prop :=
  ('A' ≤ c ∧ c ≤ 'Z') ∨ ('a' ≤ c ∧ c ≤ 'z') ∨ c = '_' ∨ c = '$'

instance (c : Char) : Decidable (NameStart c) :=
  inferInstanceAs (Decidable (('A' ≤ c ∧ c ≤ 'Z') ∨ ('a' ≤ c ∧ c ≤ 'z') ∨ c = '_' ∨ c = '$'))

/-- A character with which a name may start, a digit or a hyphen. -/
def NameChar (c : Char) : Prop := NameStart c ∨ ('0' ≤ c ∧ c ≤ '9') ∨ c = '-'

instance (c : Char) : Decidable (NameChar c) :=
  inferInstanceAs (Decidable (NameStart c ∨ ('0' ≤ c ∧ c ≤ '9') ∨ c = '-'))

/-- A name. -/
inductive NameText : List Char → Prop
  | start {c : Char} {cs : List Char} : NameStart c → (∀ d ∈ cs, NameChar d) → NameText (c :: cs)

/-- Names with dots between them. -/
inductive ReferenceText : List Char → Prop
  | name {cs : List Char} : NameText cs → ReferenceText cs
  | member {name cs : List Char} : NameText name → ReferenceText cs →
      ReferenceText (name ++ '.' :: cs)

theorem isIdentifierStart_iff {c : Char} : isIdentifierStart c = true ↔ NameStart c := by
  have halpha : c.isAlpha = true ↔ c.isUpper = true ∨ c.isLower = true := Bool.or_eq_true_iff
  have hupper : c.isUpper = true ↔ 'A' ≤ c ∧ c ≤ 'Z' := decide_eq_true_iff
  have hlower : c.isLower = true ↔ 'a' ≤ c ∧ c ≤ 'z' :=
    Bool.and_eq_true_iff.trans (and_congr decide_eq_true_iff decide_eq_true_iff)
  simp only [isIdentifierStart, NameStart, Bool.or_eq_true, halpha, hupper, hlower, beq_iff_eq,
    or_assoc]

theorem isIdentifierChar_iff {c : Char} : isIdentifierChar c = true ↔ NameChar c := by
  simp only [isIdentifierChar, NameChar, Bool.or_eq_true, isIdentifierStart_iff, Char.isDigit,
    Char.le_def, Bool.and_eq_true, decide_eq_true_eq, beq_iff_eq, ge_iff_le, or_assoc]

theorem isIdentifier_iff {cs : List Char} : isIdentifier cs = true ↔ NameText cs := by
  constructor
  · intro h
    obtain ⟨c, cs, rfl, hc, hcs⟩ := exists_cons_of_isIdentifier h
    exact .start (isIdentifierStart_iff.mp hc) fun d hd => isIdentifierChar_iff.mp (hcs d hd)
  · rintro ⟨hc, hcs⟩
    simp only [isIdentifier, Bool.and_eq_true, List.all_eq_true]
    exact ⟨isIdentifierStart_iff.mpr hc, fun d hd => isIdentifierChar_iff.mpr (hcs d hd)⟩

/-- The characters of names are ASCII. -/
theorem NameChar.toNat_lt {c : Char} (h : NameChar c) : c.toNat < 128 := by
  have hle (d : Char) (hd : d.toNat < 128) (hcd : c ≤ d) : c.toNat < 128 :=
    Nat.lt_of_le_of_lt (Char.le_def.mp hcd) hd
  rcases h with (⟨-, h⟩ | ⟨-, h⟩ | rfl | rfl) | ⟨-, h⟩ | rfl
  · exact hle 'Z' (by decide) h
  · exact hle 'z' (by decide) h
  · decide
  · decide
  · exact hle '9' (by decide) h
  · decide

theorem NameText.toNat_lt {cs : List Char} (h : NameText cs) : ∀ c ∈ cs, c.toNat < 128 := by
  intro c hc
  exact (isIdentifierChar_iff.mp (all_isIdentifierChar (isIdentifier_iff.mpr h) c hc)).toNat_lt

/-- References are texts of ASCII. -/
theorem ReferenceText.toNat_lt {cs : List Char} (h : ReferenceText cs) :
    ∀ c ∈ cs, c.toNat < 128 := by
  induction h with
  | name h => exact h.toNat_lt
  | member h _ ih =>
    intro c hc
    rcases List.mem_append.mp hc with hc | hc
    · exact h.toNat_lt c hc
    · rcases List.mem_cons.mp hc with rfl | hc
      · decide
      · exact ih c hc

/-- Nothing at all does not extend a reference. -/
theorem endsReference_nil : EndsReference [] :=
  ⟨fun c hc => absurd hc (by simp), fun more hmore => absurd hmore (by simp)⟩

namespace Reference

/-- A reference is written as its parts with dots between them. -/
theorem toList_raw_eq_intercalate (r : Reference) :
    r.raw.toList = ['.'].intercalate (r.parts.map String.toList) := by
  rw [raw, String.toList_intercalate]
  rfl

end Reference

/-- The written forms are those of the references whose parts are identifiers. -/
theorem referenceText_iff {cs : List Char} :
    ReferenceText cs ↔ ∃ r : Reference, r.IsWellFormed ∧ r.raw.toList = cs := by
  constructor
  · intro h
    induction h with
    | @name cs hname =>
      refine ⟨⟨String.ofList cs, []⟩, fun part hpart => ?_, ?_⟩
      · rw [List.mem_singleton.mp hpart, String.toList_ofList]
        exact isIdentifier_iff.mpr hname
      · rw [Reference.toList_raw, String.toList_ofList]
        exact List.append_nil cs
    | @member name cs hname _ ih =>
      obtain ⟨r, hr, rfl⟩ := ih
      refine ⟨⟨String.ofList name, r.parts⟩, fun part hpart => ?_, ?_⟩
      · rcases List.mem_cons.mp hpart with rfl | hpart
        · rw [String.toList_ofList]
          exact isIdentifier_iff.mpr hname
        · exact hr part hpart
      · rw [Reference.toList_raw, Reference.toList_raw, String.toList_ofList]
        rfl
  · rintro ⟨r, hr, rfl⟩
    obtain ⟨head, tail⟩ := r
    induction tail generalizing head with
    | nil =>
      rw [Reference.toList_raw, List.map_nil, stepsText, List.flatMap_nil, List.append_nil]
      exact .name (isIdentifier_iff.mp (hr head List.mem_cons_self))
    | cons next tail ih =>
      have hrest := ih next fun part hpart => hr part (List.mem_cons_of_mem _ hpart)
      rw [Reference.toList_raw] at hrest ⊢
      exact .member (isIdentifier_iff.mp (hr head List.mem_cons_self)) hrest

namespace Reference

variable {text : String} {r : Reference}

/-- What is read is followed by a text that does not extend it. -/
theorem ofText?_eq_some_iff : ofText? text = some r ↔
    ∃ rest, r.IsWellFormed ∧ EndsReference rest ∧ text.toList = r.raw.toList ++ rest := by
  rw [ofText?, Option.map_eq_some_iff]
  constructor
  · rintro ⟨⟨r, rest⟩, h, rfl⟩
    exact ⟨rest, readReference_eq_some_iff.mp h⟩
  · rintro ⟨rest, h⟩
    exact ⟨(r, rest), readReference_eq_some_iff.mpr h, rfl⟩

/-- Nothing is read exactly where no reference starts the text. -/
theorem ofText?_eq_none_iff :
    ofText? text = none ↔ ¬ ∃ cs, ReferenceText cs ∧ cs <+: text.toList := by
  rw [ofText?, Option.map_eq_none_iff, readReference_eq_none_iff]
  constructor
  · rintro h ⟨cs, hcs, hstart⟩
    obtain ⟨r, hr, rfl⟩ := referenceText_iff.mp hcs
    exact h r hr hstart
  · exact fun h r hr hstart => h ⟨_, referenceText_iff.mpr ⟨r, hr, rfl⟩, hstart⟩

/-- Nothing is read exactly where the first character starts no name. -/
theorem ofText?_eq_none_iff_head :
    ofText? text = none ↔ ∀ c ∈ text.toList.head?, ¬ NameStart c := by
  have hread : readReference text.toList = none ↔ readIdentifier text.toList = none := by
    rw [readReference]
    cases readIdentifier text.toList <;> simp
  rw [ofText?, Option.map_eq_none_iff, hread, readIdentifier_eq_none_iff]
  refine forall₂_congr fun c _ => ?_
  rw [← isIdentifierStart_iff, Bool.not_eq_true]

/-- Every reference that starts the text starts what is read. -/
theorem prefix_raw_of_ofText? (h : ofText? text = some r) {cs : List Char}
    (hcs : ReferenceText cs) (hstart : cs <+: text.toList) : cs <+: r.raw.toList := by
  obtain ⟨rest, hr, hrest, htext⟩ := ofText?_eq_some_iff.mp h
  have hraw : r.raw.toList <+: text.toList := ⟨rest, htext.symm⟩
  rcases List.prefix_or_prefix_of_prefix hstart hraw with hshort | ⟨w, hlong⟩
  · exact hshort
  -- What a longer reference adds would extend the one that was read, so it is nothing.
  · obtain ⟨r', hr', rfl⟩ := referenceText_iff.mp hcs
    obtain ⟨rest', hrest'⟩ := hstart
    have hw : EndsReference w := by
      have happend : r.raw.toList ++ (w ++ rest') = r.raw.toList ++ rest := by
        rw [← List.append_assoc, hlong, hrest', htext]
      rw [← List.append_cancel_left happend] at hrest
      exact hrest.of_append
    have hread := readReference_eq_some_iff.mpr ⟨hr, hw, hlong.symm⟩
    have hread' := readReference_eq_some_iff.mpr
      ⟨hr', endsReference_nil, (List.append_nil r'.raw.toList).symm⟩
    obtain ⟨rfl, -⟩ := Prod.mk.inj (Option.some.inj (hread.symm.trans hread'))
    exact List.prefix_rfl

/-- Cutting the text of a reference at its dots gives its parts. -/
theorem splitOn_raw (h : r.IsWellFormed) :
    r.raw.toList.splitOn '.' = r.parts.map String.toList := by
  rw [toList_raw_eq_intercalate]
  refine List.splitOn_intercalate '.' (fun part hpart hdot => ?_) (by simp [parts])
  obtain ⟨name, hname, rfl⟩ := List.mem_map.mp hpart
  exact absurd (all_isIdentifierChar (h name hname) '.' hdot) (by decide)

/-- A reference is read from its text in front of exactly the texts that do not extend it. -/
theorem ofText?_raw_append_iff (h : r.IsWellFormed) (u : String) :
    ofText? (r.raw ++ u) = some r ↔ EndsReference u.toList := by
  rw [ofText?_eq_some_iff, String.toList_append]
  constructor
  · rintro ⟨rest, -, hrest, htext⟩
    rwa [List.append_cancel_left htext]
  · exact fun hu => ⟨_, h, hu, rfl⟩

theorem ofText?_raw (h : r.IsWellFormed) : ofText? r.raw = some r := by
  have hread := (ofText?_raw_append_iff h "").mpr endsReference_nil
  rwa [String.append_empty] at hread

/-- Nothing is read from a text that starts with no reference, which is one whose first character
starts no name.  From any other text the longest reference is read that it starts with: its parts
are names, which are the pieces between its dots, the bound name first, and it is read again from
its own text.  A reference is read from its text in front of another text unless that starts with a
character of names or with a dot and the start of a name. -/
theorem ofText?_longest :
    (∀ text : String,
      (ofText? text = none ↔ ¬ ∃ cs, ReferenceText cs ∧ cs <+: text.toList) ∧
      (ofText? text = none ↔ ∀ c ∈ text.toList.head?, ¬ NameStart c) ∧
      ∀ r, ofText? text = some r →
        (ReferenceText r.raw.toList ∧ r.raw.toList <+: text.toList ∧
          ∀ cs, ReferenceText cs → cs <+: text.toList → cs.length ≤ r.raw.toList.length) ∧
        (r.parts ≠ [] ∧ (∀ part ∈ r.parts, NameText part.toList) ∧
          ".".intercalate r.parts = r.raw ∧
          r.raw.toList.splitOn '.' = r.parts.map String.toList ∧ r.head :: r.tail = r.parts) ∧
        ofText? r.raw = some r) ∧
    ∀ r : Reference, (∀ part ∈ r.parts, NameText part.toList) → ∀ u : String,
      ofText? (r.raw ++ u) = some r ↔
        (∀ c ∈ u.toList.head?, ¬ NameChar c) ∧
          ∀ c cs, u.toList = '.' :: c :: cs → ¬ NameStart c := by
  refine ⟨fun text => ⟨ofText?_eq_none_iff, ofText?_eq_none_iff_head, fun r h => ?_⟩,
    fun r hparts u => ?_⟩
  · obtain ⟨rest, hr, -, htext⟩ := ofText?_eq_some_iff.mp h
    refine ⟨⟨referenceText_iff.mpr ⟨r, hr, rfl⟩, ⟨rest, htext.symm⟩, fun cs hcs hstart => ?_⟩,
      ⟨List.cons_ne_nil _ _, fun part hpart => isIdentifier_iff.mp (hr part hpart), rfl,
        splitOn_raw hr, rfl⟩, ofText?_raw hr⟩
    exact (prefix_raw_of_ofText? h hcs hstart).length_le
  · have hr : r.IsWellFormed := fun part hpart => isIdentifier_iff.mpr (hparts part hpart)
    rw [ofText?_raw_append_iff hr]
    constructor
    · intro hu
      refine ⟨fun c hc hchar => ?_, fun c cs hcs hstart => ?_⟩
      · exact absurd (isIdentifierChar_iff.mpr hchar) (by simp [hu.head c hc])
      · exact absurd (isIdentifierStart_iff.mpr hstart) (by simp [hu.dot (c :: cs) hcs c rfl])
    · rintro ⟨hchar, hdot⟩
      refine ⟨fun c hc => ?_, fun more hmore c hc => ?_⟩
      · rw [← Bool.not_eq_true, isIdentifierChar_iff]
        exact hchar c hc
      · obtain ⟨cs, rfl⟩ := List.head?_eq_some_iff.mp hc
        rw [← Bool.not_eq_true, isIdentifierStart_iff]
        exact hdot c cs hmore

/-- A second dot ends a reference, and a hyphen after the dot does, but a name continues it. -/
theorem ofText?_longest_of_dots :
    let r : Reference := ⟨"a", ["b-"]⟩
    (∀ part ∈ r.parts, NameText part.toList) ∧ ofText? "a.b-..c" = some r ∧
      ofText? "a.b-.-c" = some r ∧ ofText? "a.b-.c" ≠ some r := by
  intro r
  have hr : r.IsWellFormed := by decide
  have hparts : ∀ part ∈ r.parts, NameText part.toList :=
    fun part hpart => isIdentifier_iff.mp (hr part hpart)
  have hread := ofText?_longest.2 r hparts
  have hdot : ∀ c ∈ ['.'].head?, ¬ NameChar c := by
    rintro c ⟨⟩
    decide
  refine ⟨hparts, (hread "..c").mpr ⟨hdot, ?_⟩, (hread ".-c").mpr ⟨hdot, ?_⟩,
    fun h => ((hread ".c").mp h).2 'c' [] rfl (by decide)⟩
  · rintro c cs ⟨⟩
    decide
  · rintro c cs ⟨⟩
    decide

end Reference

end Comprehension
