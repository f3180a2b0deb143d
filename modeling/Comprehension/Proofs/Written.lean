import Comprehension.Proofs.Grammar

/-!
# Written derivations

A template that the grammar derives is read up to its end, so that only the checks of reading can
refuse it: its plan, or the first check that fails, is computed from the derivation alone.  White
space and the number of braces therefore do not matter.  Conversely, a derivation whose references
and names are made of identifiers has a text, in which single spaces separate the parts.

## Main definitions

* `Derivation.plan`: the checks of reading, applied to a derivation.
* `Derivation.IsWellFormed`, `Derivation.template`: derivations that can be written, and their text.

## Main results

* `ofTemplate_eq_plan`: reading a derived template is checking its derivation.
* `Derivation.IsWellFormed.derives`: the text of a derivation is derived by it.
-/

namespace Comprehension

open Text

/-! ### The checks of reading -/

/-- Whether an operand is a null or undefined value. -/
def Operand.isNullish : Operand → Bool
  | .reference _ => false
  | .slot x => x.isNullish

theorem Operand.isNullish_eq_false_iff {o : Operand} :
    o.isNullish = false ↔ ∀ v, o = .slot (.value v) → v ≠ .null ∧ v ≠ .undefined := by
  cases o with
  | reference r => simp [isNullish]
  | slot x => simpa [isNullish] using Slot.isNullish_eq_false_iff

/-- The plan of a derivation, or the first of its checks that fails: a key that is null or
undefined, several names for keys, a source that cannot be walked, and the names of the key and of
the value. -/
def Derivation.plan (d : Derivation) : Except ParseError Plan := do
  if d.key.isNullish then throw (.missing .key)
  let b ← Bindings.ofNames d.iteration d.names
  let entries ← Entries.ofSlot b.iteration d.source
  let key ← Provider.bind b d.key
  let value ← Provider.bind b d.value
  return ⟨key, value, b, entries⟩

/-- A key is read like a value and then refused if it is null or undefined. -/
theorem Cursor.readOperand_key_of_value {c c' : Cursor} {o : Operand}
    (h : c.readOperand .value = .ok (o, c')) :
    c.readOperand .key = if o.isNullish then .error (.missing .key) else .ok (o, c') := by
  simp only [Cursor.readOperand] at h ⊢
  split at h
  · rename_i htext
    rw [if_pos htext]
    cases hslot : c.takeSlot? with
    | none => simp [hslot] at h
    | some p =>
      obtain ⟨x, c''⟩ := p
      simp only [hslot, reduceCtorEq, false_and, if_false, Except.ok.injEq, Prod.mk.injEq] at h
      obtain ⟨rfl, rfl⟩ := h
      simp only [true_and]
      rfl
  · rename_i htext
    rw [if_neg htext]
    cases hread : readReference c.text with
    | none => simp [hread] at h
    | some p =>
      obtain ⟨r, rest⟩ := p
      simp only [hread, Except.ok.injEq, Prod.mk.injEq] at h
      obtain ⟨rfl, rfl⟩ := h
      rfl

/-- The names of a clause are bound unless several of them are to be bound to a key. -/
theorem readClause_of_clauseText {iteration : Iteration} {names : List String} {cs : List Char}
    (h : ClauseText iteration names cs) : readClause cs = Bindings.ofNames iteration names := by
  by_cases hi : iteration = .implicit
  · subst hi
    obtain ⟨rfl, rfl⟩ := h.eq_over
    rfl
  · have hover : cs ≠ "over".toList := by
      rintro rfl
      exact hi (not_clauseText_over h)
    simp only [readClause, if_neg hover, forClause?_eq_some_iff.mpr ⟨hi, h⟩]

/-- Reading a derived template is checking its derivation. -/
theorem ofTemplate_eq_plan {t : Template} {d : Derivation} (h : d.Derives t.stream) :
    Plan.ofTemplate t = d.plan := by
  obtain ⟨⟨c₁, c₂, c₃, c₄, hkey, hcolon, hvalue, hclause, hsource, hend⟩, -⟩ := readsAs_of_derives h
  have hslot : Cursor.takeSlot? { c₃ with text := [] } = some (d.source, c₄) := hsource
  rw [Plan.ofTemplate, Derivation.plan, Cursor.readOperand_key_of_value hkey]
  cases d.key.isNullish with
  | true => rfl
  | false =>
    simp only [Bool.false_eq_true, if_false, bind, Except.bind, hcolon, hvalue, pure, Except.pure,
      Cursor.readBindings, readClause_of_clauseText hclause]
    cases Bindings.ofNames d.iteration d.names with
    | error e => rfl
    | ok b =>
      simp only [Cursor.readEntries, hslot, bind, Except.bind, pure, Except.pure]
      cases Entries.ofSlot b.iteration d.source with
      | error e => rfl
      | ok entries => simp only [hend]

/-! ### The text of a derivation -/

/-- The template of a stream. -/
def Template.ofStream (s : List Symbol) : Template := ⟨String.ofList (leadingText s), slotsAhead s⟩

@[simp] theorem stream_ofStream (s : List Symbol) : (Template.ofStream s).stream = s := by
  have hstream : ∀ s : List Symbol, symbols (leadingText s) ++ (slotsAhead s).flatMap
      (fun p => .slot p.1 :: symbols p.2.toList) = s := by
    intro s
    induction s with
    | nil => rfl
    | cons y s ih =>
      cases y with
      | char c => exact congrArg (.char c :: ·) ih
      | slot x =>
        rw [leadingText_slot, slotsAhead_slot, List.flatMap_cons, String.toList_ofList]
        exact congrArg (.slot x :: ·) ih
  rw [Template.stream, Template.ofStream, String.toList_ofList]
  exact hstream s

/-- The written form of an operand. -/
def Operand.written : Operand → List Symbol
  | .reference r => symbols r.raw.toList
  | .slot x => [.slot x]

/-- The written form of a clause, with single spaces. -/
def writtenClause (iteration : Iteration) (names : List String) : List Char :=
  match iteration with
  | .implicit => "over".toList
  | iteration =>
    "for ".toList ++ (", ".intercalate names).toList ++ ' ' :: iteration.keyword.toList

namespace Derivation

/-- The text of a derivation, with single spaces between its parts. -/
def template (d : Derivation) : Template :=
  .ofStream (symbols (List.replicate d.opening '{') ++ d.key.written ++ symbols " : ".toList ++
    d.value.written ++ symbols (' ' :: writtenClause d.iteration d.names) ++ [.slot d.source] ++
    symbols d.closing)

/-- The references and the names of a derivation are made of identifiers, it has a name, the one
that `over` binds where none is written, and only braces and white space follow its source. -/
structure IsWellFormed (d : Derivation) : Prop where
  key : ∀ r, d.key = .reference r → r.IsWellFormed
  value : ∀ r, d.value = .reference r → r.IsWellFormed
  ne_nil : d.names ≠ []
  names : ∀ n ∈ d.names, isIdentifier n.toList = true
  implicit : d.iteration = .implicit → d.names = [Bindings.implicitName]
  closing : ∀ c ∈ d.closing, c = '}' ∨ isBlank c = true

end Derivation

/-- A bound name alone is a reference. -/
theorem isWellFormed_of_name {name : String} (h : isIdentifier name.toList = true) :
    ∀ r, Operand.reference ⟨name, []⟩ = .reference r → r.IsWellFormed := by
  intro r hr part hpart
  obtain rfl := Operand.reference.inj hr
  rw [List.mem_singleton.mp hpart]
  exact h

theorem operandText_written {o : Operand} (h : ∀ r, o = .reference r → r.IsWellFormed) :
    OperandText o o.written := by
  cases o with
  | reference r => exact .reference (h r rfl)
  | slot x => exact .slot x

theorem namesText_intercalate {names : List String} (h0 : names ≠ [])
    (h : ∀ n ∈ names, isIdentifier n.toList = true) :
    NamesText names (", ".intercalate names).toList := by
  induction names with
  | nil => exact absurd rfl h0
  | cons n names ih =>
    obtain ⟨hn, hnames⟩ := List.forall_mem_cons.mp h
    cases names with
    | nil => simpa using NamesText.one hn
    | cons m names =>
      have hmore := NamesText.more hn blank_nil (v := [' ']) (by decide) (ih (by simp) hnames)
      simpa [String.toList_intercalate, List.intercalate_cons_cons] using hmore

theorem clauseText_written {iteration : Iteration} {names : List String} (h0 : names ≠ [])
    (hnames : ∀ n ∈ names, isIdentifier n.toList = true)
    (himplicit : iteration = .implicit → names = [Bindings.implicitName]) :
    ClauseText iteration names (writtenClause iteration names) := by
  have hblank : Blank [' '] := by decide
  by_cases hi : iteration = .implicit
  · subst hi
    rw [himplicit rfl]
    exact .implicit
  · have hwritten := namesText_intercalate h0 hnames
    have h := ClauseText.named hi hblank (by simp) hwritten hblank (by simp)
    cases iteration with
    | implicit => exact absurd rfl hi
    | each => simpa [writtenClause] using h
    | keys => simpa [writtenClause] using h

/-- The text of a derivation is derived by it. -/
theorem Derivation.IsWellFormed.derives {d : Derivation} (h : d.IsWellFormed) :
    d.Derives d.template.stream := by
  have hblank : Blank [' '] := by decide
  have hderives := Derivation.Derives.intro (d := d) blank_nil blank_nil hblank hblank hblank
    blank_nil (operandText_written h.key) (operandText_written h.value) (by simp)
    (clauseText_written h.ne_nil h.names h.implicit) h.closing
  rw [Derivation.template, stream_ofStream]
  convert hderives using 1
  simp [symbols]

example : (Derivation.template ⟨1, .reference ⟨"k", []⟩, .slot (.value .null), .keys, ["k"],
    .value (.array []), ['}']⟩).segments = ["\x7bk : ", " for k in", "\x7d"] := by decide

end Comprehension
