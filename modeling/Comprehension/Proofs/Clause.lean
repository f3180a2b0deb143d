import Comprehension.Clause
import Comprehension.Proofs.Reference
import Comprehension.Proofs.Text.Trimming

/-!
# The grammar of iteration clauses

`NamesText` and `ClauseText` give the written forms of names and of clauses.  No identifier is
reserved: the names of a `for` clause may be `for`, `of` or `in`, and the iteration is decided by
the word after the last blank of the clause.

## Main definitions

* `NamesText`: identifiers with commas between them.
* `ClauseText`: the clauses of an iteration and its names.

## Main results

* `forClause?_eq_some_iff`, `readClause_eq_ok_iff`: the readers accept exactly the written forms.
* `ClauseText.unique`: a clause has one iteration and one list of names.
-/

namespace Comprehension

open Text

/-- Identifiers with commas between them and white space around the commas. -/
inductive NamesText : List String → List Char → Prop
  | one {name : String} : isIdentifier name.toList = true → NamesText [name] name.toList
  | more {name : String} {names : List String} {u v cs : List Char} :
      isIdentifier name.toList = true → Blank u → Blank v → NamesText names cs →
      NamesText (name :: names) (name.toList ++ u ++ ',' :: v ++ cs)

/-- The written forms of a clause: `over`, which binds the implicit name, or `for`, names and the
keyword of the iteration, with white space between these. -/
inductive ClauseText : Iteration → List String → List Char → Prop
  | implicit : ClauseText .implicit [Bindings.implicitName] "over".toList
  | named {iteration : Iteration} {names : List String} {u cs v : List Char} :
      iteration ≠ .implicit → Blank u → u ≠ [] → NamesText names cs → Blank v → v ≠ [] →
      ClauseText iteration names ("for".toList ++ u ++ cs ++ v ++ iteration.keyword.toList)

/-! ### White space and identifiers -/

/-- No character of an identifier is white space. -/
theorem isIdentifierChar_of_isBlank {c : Char} (h : isBlank c = true) :
    isIdentifierChar c = false := by
  simp only [isBlank, Bool.or_eq_true, Bool.and_eq_true, decide_eq_true_eq, beq_iff_eq] at h
  have hchar : isIdentifierChar c =
      ((((decide (c.val ≥ 65 ∧ c.val ≤ 90) || (decide (c.val ≥ 97) && decide (c.val ≤ 122))) ||
        c == '_' || c == '$') || (decide (c.val ≥ 48) && decide (c.val ≤ 57))) || c == '-') := rfl
  have hval : c.val.toNat = c.toNat := rfl
  rw [hchar]
  simp [← Char.toNat_inj, UInt32.le_iff_toNat_le, hval]
  omega

theorem isBlank_of_isIdentifierStart {c : Char} (h : isIdentifierStart c = true) :
    isBlank c = false := by
  by_contra hc
  have hid := isIdentifierChar_of_isBlank (by simpa using hc)
  rw [isIdentifierChar_of_isIdentifierStart h] at hid
  exact absurd hid (by simp)

/-- White space does not extend an identifier, nor does what comes after it. -/
theorem endsIdentifier_append_of_blank {u cs : List Char} (hu : Blank u) (hcs : EndsIdentifier cs) :
    EndsIdentifier (u ++ cs) := by
  cases u with
  | nil => exact hcs
  | cons c u =>
    intro d hd
    obtain rfl := Option.some.inj hd
    exact isIdentifierChar_of_isBlank (hu _ List.mem_cons_self)

theorem trimStart_append_of_isIdentifier {u name rest : List Char} (hu : Blank u)
    (hname : isIdentifier name = true) : trimStart (u ++ (name ++ rest)) = name ++ rest := by
  obtain ⟨c, cs, rfl, hc, -⟩ := exists_cons_of_isIdentifier hname
  rw [trimStart_append_of_blank hu]
  refine trimStart_eq_self fun d hd => ?_
  obtain rfl := Option.some.inj hd
  exact isBlank_of_isIdentifierStart hc

theorem isIdentifierStart_of_isBlank {c : Char} (h : isBlank c = true) :
    isIdentifierStart c = false := by
  by_contra hc
  have hblank := isBlank_of_isIdentifierStart (by simpa using hc)
  rw [h] at hblank
  exact absurd hblank (by simp)

/-- A text that does not extend a reference does not extend it with white space after it. -/
theorem EndsReference.append_of_blank {cs v : List Char} (h : EndsReference cs) (hv : Blank v) :
    EndsReference (cs ++ v) := by
  cases cs with
  | nil =>
    refine ⟨fun c hc => isIdentifierChar_of_isBlank (hv c (List.mem_of_mem_head? hc)),
      fun more hmore => ?_⟩
    obtain rfl : v = '.' :: more := hmore
    exact absurd (hv '.' List.mem_cons_self) (by decide)
  | cons c cs =>
    refine ⟨fun d hd => h.head d hd, fun more hmore d hd => ?_⟩
    obtain ⟨rfl, rfl⟩ := List.cons.inj hmore
    cases cs with
    | nil => exact isIdentifierStart_of_isBlank (hv d (List.mem_of_mem_head? hd))
    | cons e cs => exact h.dot _ rfl d hd

/-- A text that does not extend a reference does not extend it without its last part. -/
theorem EndsReference.of_append {cs v : List Char} (h : EndsReference (cs ++ v)) :
    EndsReference cs := by
  cases cs with
  | nil => exact ⟨fun c hc => absurd hc (by simp), fun more hmore => absurd hmore (by simp)⟩
  | cons c cs =>
    refine ⟨fun d hd => h.head d hd, fun more hmore d hd => h.dot (more ++ v) ?_ d ?_⟩
    · rw [hmore, List.cons_append]
    · rw [List.head?_append, Option.mem_def.mp hd, Option.some_or]
      rfl

theorem EndsReference.trimEnd {cs : List Char} (h : EndsReference cs) :
    EndsReference (trimEnd cs) := by
  obtain ⟨v, -, hcs⟩ := exists_trimEnd_append cs
  rw [hcs] at h
  exact h.of_append

/-! ### Names -/

theorem NamesText.ne_nil {names : List String} {cs : List Char} (h : NamesText names cs) :
    names ≠ [] := by
  cases h <;> exact List.cons_ne_nil _ _

/-- The written form of names starts with an identifier. -/
theorem NamesText.exists_append {names : List String} {cs : List Char} (h : NamesText names cs) :
    ∃ name rest, isIdentifier name = true ∧ cs = name ++ rest := by
  cases h with
  | one hname => exact ⟨_, [], hname, (List.append_nil _).symm⟩
  | more hname _ _ _ => exact ⟨_, _, hname, by rw [List.append_assoc, List.append_assoc]⟩

/-- White space before names is skipped, and nothing else. -/
theorem NamesText.trimStart_append {names : List String} {u cs : List Char}
    (h : NamesText names cs) (hu : Blank u) (rest : List Char) :
    trimStart (u ++ (cs ++ rest)) = cs ++ rest := by
  obtain ⟨name, more, hname, rfl⟩ := h.exists_append
  rw [List.append_assoc, trimStart_append_of_isIdentifier hu hname]

/-- A comma after white space does not extend an identifier. -/
private theorem endsIdentifier_comma {u : List Char} (hu : Blank u) (cs : List Char) :
    EndsIdentifier (u ++ ',' :: cs) := by
  refine endsIdentifier_append_of_blank hu fun c hc => ?_
  obtain rfl := Option.some.inj hc
  rfl

private theorem trimStart_comma {u : List Char} (hu : Blank u) (cs : List Char) :
    trimStart (u ++ ',' :: cs) = ',' :: cs := by
  rw [trimStart_append_of_blank hu]
  refine trimStart_eq_self fun c hc => ?_
  obtain rfl := Option.some.inj hc
  rfl

/-- Names are read back when the text after them extends neither the last name nor the list. -/
theorem NamesText.readNames_append {names : List String} {cs rest : List Char}
    (h : NamesText names cs) (hid : EndsIdentifier rest)
    (hcomma : ∀ more, trimStart rest ≠ ',' :: more) :
    readNames (cs ++ rest) = some (names, rest) := by
  induction h with
  | @one name hname =>
    rw [readNames.eq_def]
    split
    · rename_i hread
      rw [readIdentifier_append hname hid] at hread
      exact absurd hread (by simp)
    · rename_i hread
      rw [readIdentifier_append hname hid] at hread
      obtain ⟨rfl, rfl⟩ := Prod.mk.inj (Option.some.inj hread)
      split
      · rename_i more htrim
        exact absurd htrim (hcomma more)
      · rw [String.ofList_toList]
  | @more name names u v cs hname hu hv hnames ih =>
    have hcs : name.toList ++ u ++ ',' :: v ++ cs ++ rest =
        name.toList ++ (u ++ ',' :: (v ++ (cs ++ rest))) := by simp
    have hid : EndsIdentifier (u ++ ',' :: (v ++ (cs ++ rest))) := endsIdentifier_comma hu _
    rw [hcs, readNames.eq_def]
    split
    · rename_i hread
      rw [readIdentifier_append hname hid] at hread
      exact absurd hread (by simp)
    · rename_i hread
      rw [readIdentifier_append hname hid] at hread
      obtain ⟨rfl, rfl⟩ := Prod.mk.inj (Option.some.inj hread)
      split
      · rename_i more htrim
        rw [trimStart_comma hu] at htrim
        obtain rfl := (List.cons.inj htrim).2
        rw [hnames.trimStart_append hv, ih, Option.map_some, String.ofList_toList]
      · rename_i hno
        exact absurd (trimStart_comma hu _) (hno _)

/-- What is read as names is the written form of them. -/
theorem namesText_of_readNames {cs rest : List Char} {names : List String}
    (h : readNames cs = some (names, rest)) : ∃ text, NamesText names text ∧ cs = text ++ rest := by
  fun_induction readNames cs generalizing names rest with
  | case1 cs hread => simp at h
  | case2 cs name after hread more htrim ih =>
    obtain ⟨⟨others, rest'⟩, hothers, heq⟩ := Option.map_eq_some_iff.mp h
    obtain ⟨rfl, rfl⟩ := Prod.mk.inj heq
    obtain ⟨text, htext, hmore⟩ := ih hothers
    obtain ⟨u, hu, hafter⟩ := exists_append_trimStart after
    obtain ⟨v, hv, hstart⟩ := exists_append_trimStart more
    have hname : isIdentifier (String.ofList name).toList = true := by
      rw [String.toList_ofList]
      exact isIdentifier_of_readIdentifier hread
    refine ⟨_, .more hname hu hv htext, ?_⟩
    rw [← append_of_readIdentifier hread, hafter, htrim, hstart, hmore, String.toList_ofList]
    simp
  | case3 cs name after hread hno =>
    obtain ⟨rfl, rfl⟩ := Prod.mk.inj (Option.some.inj h)
    have hname : isIdentifier (String.ofList name).toList = true := by
      rw [String.toList_ofList]
      exact isIdentifier_of_readIdentifier hread
    refine ⟨_, .one hname, ?_⟩
    rw [String.toList_ofList, append_of_readIdentifier hread]

/-! ### Clauses -/

/-- The first letter of the word of a `for` clause is no white space. -/
private theorem trimStart_keyword (iteration : Iteration) {v : List Char} (hv : Blank v) :
    trimStart (v ++ iteration.keyword.toList) = iteration.keyword.toList := by
  rw [trimStart_append_of_blank hv]
  cases iteration <;> rfl

/-- The iteration of a `for` clause is read from white space and its keyword. -/
theorem iteration?_eq_some_iff {cs : List Char} {iteration : Iteration} :
    iteration? cs = some iteration ↔
      iteration ≠ .implicit ∧ ∃ v, Blank v ∧ v ≠ [] ∧ cs = v ++ iteration.keyword.toList := by
  constructor
  · intro h
    obtain ⟨v, hv, hcs⟩ := exists_append_trimStart cs
    have hne : v = [] → trimStart cs = cs := by
      rintro rfl
      exact hcs.symm
    cases cs with
    | nil => simp [iteration?] at h
    | cons c cs =>
      simp only [iteration?] at h
      split at h
      · rename_i hc
        have hv0 : v ≠ [] := by
          intro h0
          have hstart : (trimStart (c :: cs)).head? = some c := by
            rw [hne h0]
            rfl
          have hhead := head?_trimStart hstart
          rw [hc] at hhead
          exact absurd hhead (by simp)
        split at h
        · rename_i hkey
          obtain rfl := Option.some.inj h
          exact ⟨by simp, v, hv, hv0, by rw [hcs, hkey]; rfl⟩
        · rename_i hkey
          obtain rfl := Option.some.inj h
          exact ⟨by simp, v, hv, hv0, by rw [hcs, hkey]; rfl⟩
        · simp at h
      · simp at h
  · rintro ⟨hi, v, hv, hv0, rfl⟩
    cases v with
    | nil => exact absurd rfl hv0
    | cons c v =>
      have hc := hv c List.mem_cons_self
      have hkey := trimStart_keyword iteration hv
      rw [List.cons_append] at hkey ⊢
      simp only [iteration?, hc, if_true, hkey]
      cases iteration with
      | implicit => exact absurd rfl hi
      | each => rfl
      | keys => rfl

/-- After its names a `for` clause has white space and a keyword, which do not extend the names. -/
private theorem readNames_keyword {iteration : Iteration} {names : List String}
    {cs v : List Char} (hi : iteration ≠ .implicit) (hnames : NamesText names cs) (hv : Blank v)
    (hv0 : v ≠ []) :
    readNames (cs ++ (v ++ iteration.keyword.toList)) =
      some (names, v ++ iteration.keyword.toList) := by
  refine hnames.readNames_append ?_ fun more => ?_
  · obtain ⟨c, w, rfl⟩ := List.exists_cons_of_ne_nil hv0
    intro d hd
    obtain rfl := Option.some.inj hd
    exact isIdentifierChar_of_isBlank (hv _ List.mem_cons_self)
  · rw [trimStart_keyword iteration hv]
    cases iteration with
    | implicit => exact absurd rfl hi
    | each => simp [Iteration.keyword]
    | keys => simp [Iteration.keyword]

/-- Exactly the `for` clauses are read as such. -/
theorem forClause?_eq_some_iff {cs : List Char} {names : List String} {iteration : Iteration} :
    forClause? cs = some (names, iteration) ↔
      iteration ≠ .implicit ∧ ClauseText iteration names cs := by
  constructor
  · intro h
    unfold forClause? at h
    split at h
    · rename_i c more
      split at h
      · rename_i hc
        simp only [Option.bind_eq_bind, Option.pure_def, Option.bind_eq_some_iff, Prod.exists,
          Option.some.injEq, Prod.mk.injEq] at h
        obtain ⟨names', rest, hnames, iteration', hit, rfl, rfl⟩ := h
        obtain ⟨text, htext, hmore⟩ := namesText_of_readNames hnames
        obtain ⟨hi, v, hv, hv0, rfl⟩ := iteration?_eq_some_iff.mp hit
        obtain ⟨u, hu, hstart⟩ := exists_append_trimStart more
        have hcu : Blank (c :: u) := by
          intro d hd
          rcases List.mem_cons.mp hd with rfl | hd
          · exact hc
          · exact hu d hd
        have hcs : 'f' :: 'o' :: 'r' :: c :: more =
            "for".toList ++ (c :: u) ++ text ++ v ++ iteration'.keyword.toList := by
          rw [hstart, hmore]
          simp
        refine ⟨hi, ?_⟩
        rw [hcs]
        exact .named hi hcu (List.cons_ne_nil _ _) htext hv hv0
      · simp at h
    · simp at h
  · rintro ⟨hi, h⟩
    cases h with
    | implicit => exact absurd rfl hi
    | @named _ _ u text v _ hu hu0 hnames hv hv0 =>
      obtain ⟨c, u, rfl⟩ := List.exists_cons_of_ne_nil hu0
      have hc := hu c List.mem_cons_self
      have hu' : Blank u := fun d hd => hu d (List.mem_cons_of_mem _ hd)
      have hread := readNames_keyword hi hnames hv hv0
      have hit := iteration?_eq_some_iff.mpr ⟨hi, v, hv, hv0, rfl⟩
      have hcs : "for".toList ++ (c :: u) ++ text ++ v ++ iteration.keyword.toList =
          'f' :: 'o' :: 'r' :: c :: (u ++ (text ++ (v ++ iteration.keyword.toList))) := by simp
      rw [hcs]
      simp only [forClause?, hc, if_true, hnames.trimStart_append hu', hread, hit,
        Option.bind_eq_bind, Option.bind_some, Option.pure_def]

/-- A clause starts and ends with a letter. -/
theorem ClauseText.trimmed {iteration : Iteration} {names : List String} {cs : List Char}
    (h : ClauseText iteration names cs) : Trimmed cs := by
  cases h with
  | implicit =>
    constructor
    · rintro c ⟨⟩
      rfl
    · rintro c ⟨⟩
      rfl
  | @named _ _ u text v hi _ _ _ _ _ =>
    refine ⟨fun c hc => ?_, fun c hc => ?_⟩
    · obtain rfl := Option.some.inj hc
      rfl
    · rw [List.getLast?_append] at hc
      cases iteration with
      | implicit => exact absurd rfl hi
      | each => obtain rfl := Option.some.inj hc; rfl
      | keys => obtain rfl := Option.some.inj hc; rfl

/-- The clause of the implicit name is no `for` clause. -/
theorem ClauseText.eq_over {names : List String} {cs : List Char}
    (h : ClauseText .implicit names cs) : names = [Bindings.implicitName] ∧ cs = "over".toList := by
  cases h with
  | implicit => exact ⟨rfl, rfl⟩
  | named hi => exact absurd rfl hi

theorem not_clauseText_over {iteration : Iteration} {names : List String}
    (h : ClauseText iteration names "over".toList) : iteration = .implicit := by
  by_contra hi
  have hfor := forClause?_eq_some_iff.mpr ⟨hi, h⟩
  exact absurd hfor (by simp [forClause?])

/-- A text is a clause in at most one way. -/
theorem ClauseText.unique {i j : Iteration} {ns ms : List String} {cs : List Char}
    (h : ClauseText i ns cs) (h' : ClauseText j ms cs) : i = j ∧ ns = ms := by
  by_cases hi : i = .implicit
  · subst hi
    obtain ⟨rfl, rfl⟩ := h.eq_over
    obtain rfl := not_clauseText_over h'
    exact ⟨rfl, h'.eq_over.1.symm⟩
  · by_cases hj : j = .implicit
    · subst hj
      obtain ⟨rfl, rfl⟩ := h'.eq_over
      exact absurd (not_clauseText_over h) hi
    · have hread := forClause?_eq_some_iff.mpr ⟨hi, h⟩
      rw [forClause?_eq_some_iff.mpr ⟨hj, h'⟩] at hread
      obtain ⟨rfl, rfl⟩ := Prod.mk.inj (Option.some.inj hread)
      exact ⟨rfl, rfl⟩

/-- Exactly the clauses whose names can be bound are read. -/
theorem readClause_eq_ok_iff {cs : List Char} {b : Bindings} :
    readClause cs = .ok b ↔ ClauseText b.iteration b.names cs := by
  constructor
  · intro h
    unfold readClause at h
    split at h
    · rename_i hover
      obtain rfl := Except.ok.inj h
      rw [hover]
      exact .implicit
    · split at h
      · rename_i names iteration hfor
        simp only [Bindings.ofNames] at h
        split at h
        · obtain rfl := Except.ok.inj h
          exact (forClause?_eq_some_iff.mp hfor).2
        · exact absurd h (by simp)
      · exact absurd h (by simp)
  · intro h
    obtain ⟨iteration, names, hb⟩ := b
    by_cases hi : iteration = .implicit
    · subst hi
      obtain ⟨hnames, rfl⟩ := h.eq_over
      simp only at hnames
      subst hnames
      rfl
    · have hover : cs ≠ "over".toList := by
        rintro rfl
        exact hi (not_clauseText_over h)
      simp only [readClause, if_neg hover, forClause?_eq_some_iff.mpr ⟨hi, h⟩, Bindings.ofNames,
        dif_pos hb]

end Comprehension
