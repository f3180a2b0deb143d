import Comprehension.Proofs.Agreement
import Comprehension.Proofs.Binding
import Comprehension.Proofs.Stream

/-!
# The grammar of comprehensions

A comprehension is written as

`{ key : value clause source }`

with white space between its parts, any number of opening and closing braces, and references or
slots for key and value.  This file states the grammar over the stream of a template, without
reference to how a template is read, and proves that reading accepts exactly the valid derivations
of the grammar and that every stream has at most one derivation.

Reading and grammar are compared in two steps.  `Template.ReadsAs` runs the steps of reading without
their checks, and is the grammar (`readsAs_of_derives`, `exists_derives_of_readsAs`); the checks of
`Plan.ofTemplate` then are the validity of the derivation (`ofTemplate_eq_ok_iff_readsAs`).

## Main definitions

* `Derivation`, `Derivation.Derives`: derivations and the streams that they derive.
* `Derivation.Valid`: what the parts of a derivation have to satisfy.
* `Derivation.Denotes`: the plan that a derivation stands for.

## Main results

* `ofTemplate_accepts_grammar`: reading accepts the grammar and gives the plan of the derivation.
-/

namespace Comprehension

open Text

/-- A way to read a stream as a comprehension: the number of opening braces, the parts, and the
characters after the source. -/
structure Derivation where
  opening : Nat
  key : Operand
  value : Operand
  iteration : Iteration
  names : List String
  source : Slot
  closing : List Char

namespace Derivation

/-- The streams of a derivation.  White space separates a value that is a reference from the clause,
and may stand between any other two parts. -/
inductive Derives (d : Derivation) : List Symbol → Prop
  | intro {w₁ w₂ w₃ w₄ w₅ w₆ clause : List Char} {key value : List Symbol} :
      Blank w₁ → Blank w₂ → Blank w₃ → Blank w₄ → Blank w₅ → Blank w₆ →
      OperandText d.key key → OperandText d.value value →
      (∀ r, d.value = .reference r → w₅ ≠ []) →
      ClauseText d.iteration d.names clause →
      (∀ c ∈ d.closing, c = '}' ∨ isBlank c = true) →
      Derives d (symbols w₁ ++ symbols (List.replicate d.opening '{') ++ symbols w₂ ++ key ++
        symbols w₃ ++ [.char ':'] ++ symbols w₄ ++ value ++ symbols w₅ ++ symbols clause ++
        symbols w₆ ++ [.slot d.source] ++ symbols d.closing)

/-- What the parts of a derivation have to satisfy: a key slot is not null or undefined, the source
is an array or, where keys are walked, an object, keys are walked under a single name, and
references start with bound names and have no members to follow where keys are walked. -/
structure Valid (d : Derivation) : Prop where
  key : ∀ v, d.key = .slot (.value v) → v ≠ .null ∧ v ≠ .undefined
  source : (∃ vs, d.source = .value (.array vs)) ∨
    d.iteration = .keys ∧ ∃ ms, d.source = .value (.object ms)
  names : d.iteration = .keys → d.names.length = 1
  bound : ∀ r, d.key = .reference r ∨ d.value = .reference r → r.head ∈ d.names
  path : ∀ r, d.key = .reference r ∨ d.value = .reference r →
    d.iteration = .keys → r.parts.length = 1

/-- The plan that a derivation stands for. -/
structure Denotes (d : Derivation) (p : Plan) : Prop where
  key : ProviderOf d.names d.key p.key
  value : ProviderOf d.names d.value p.value
  iteration : p.bindings.iteration = d.iteration
  names : p.bindings.names = d.names
  entries : EntriesOf d.iteration d.source p.entries

end Derivation

/-- The steps of reading a template without their checks give the parts of a derivation. -/
def Template.ReadsAs (t : Template) (d : Derivation) : Prop :=
  ∃ c₁ c₂ c₃ c₄, (Cursor.start t).readOperand .value = .ok (d.key, c₁) ∧ c₁.readColon = .ok c₂ ∧
    c₂.readOperand .value = .ok (d.value, c₃) ∧ ClauseText d.iteration d.names (trim c₃.text) ∧
    c₃.takeSlot? = some (d.source, c₄) ∧ c₄.readEnd = .ok ()

/-! ### Reading without checks is the grammar -/

/-- A text in front of a part that starts with another character does not extend a reference. -/
private theorem endsReference_of_head {cs : List Char}
    (h : ∀ c ∈ cs.head?, isIdentifierChar c = false ∧ c ≠ '.') : EndsReference cs := by
  refine ⟨fun c hc => (h c hc).1, fun more hmore => ?_⟩
  subst hmore
  exact absurd rfl (h '.' rfl).2

theorem endsReference_of_isBlank {c : Char} (hc : isBlank c = true) (cs : List Char) :
    EndsReference (c :: cs) := by
  refine endsReference_of_head fun d hd => ?_
  obtain rfl := Option.some.inj hd
  exact ⟨isIdentifierChar_of_isBlank hc, by rintro rfl; exact absurd hc (by decide)⟩

/-- A clause extends an identifier in front of it. -/
private theorem not_endsIdentifier_of_clauseText {iteration : Iteration} {names : List String}
    {cs : List Char} (h : ClauseText iteration names cs) (ds : List Char) :
    ¬ EndsIdentifier (cs ++ ds) := by
  intro hends
  cases h with
  | implicit => exact absurd (hends 'o' rfl) (by decide)
  | named => exact absurd (hends 'f' rfl) (by decide)

/-- An operand starts with no brace. -/
private theorem head?_operandText {o : Operand} {k : List Symbol} (hk : OperandText o k)
    (s : List Symbol) : ∀ c ∈ (trim (leadingText (k ++ s))).head?, c ≠ '{' := by
  cases hk with
  | slot x => exact fun c hc => absurd hc (by simp [trim, trimStart, trimEnd])
  | @reference r hr =>
    obtain ⟨d, cs, hraw, hd⟩ := Cursor.exists_cons_of_raw hr
    intro c hc
    rw [leadingText_symbols_append, (Cursor.trimmed_raw hr).trim_append (by simp [hraw]),
      hraw] at hc
    obtain rfl := Option.some.inj hc
    rintro rfl
    exact absurd hd (by decide)

/-- The parts of a derivation are read from each of its streams, and the opening braces and the
closing characters are those of the template. -/
theorem readsAs_of_derives {t : Template} {d : Derivation} (h : d.Derives t.stream) :
    t.ReadsAs d ∧ Cursor.openingBraces t = d.opening ∧
      t.rest.getLast? = some (d.source, String.ofList d.closing) := by
  generalize ht : t.stream = stream at h
  cases h with
  | @intro w₁ w₂ w₃ w₄ w₅ w₆ clause key value hw₁ hw₂ hw₃ hw₄ hw₅ hw₆ hkey hvalue hsep hclause
      hclosing =>
    let s₄ := symbols d.closing
    let s₃ := symbols w₅ ++ (symbols clause ++ (symbols w₆ ++ .slot d.source :: s₄))
    let s₂ := symbols w₄ ++ (value ++ s₃)
    let s₁ := symbols w₃ ++ .char ':' :: s₂
    have hstream : t.stream =
        symbols w₁ ++ (symbols (List.replicate d.opening '{') ++ (symbols w₂ ++ (key ++ s₁))) := by
      rw [ht]
      simp only [s₁, s₂, s₃, s₄, List.append_assoc, List.cons_append, List.nil_append]
    have hs₁ : EndsReference (leadingText s₁) := by
      rw [leadingText_symbols_append]
      cases w₃ with
      | nil =>
        refine endsReference_of_head fun c hc => ?_
        obtain rfl := Option.some.inj hc
        exact ⟨by decide, by decide⟩
      | cons c w => exact endsReference_of_isBlank (hw₃ c List.mem_cons_self) _
    have hs₃ : ∀ r, d.value = .reference r → EndsReference (leadingText s₃) := by
      intro r hr
      rw [leadingText_symbols_append]
      cases w₅ with
      | nil => exact absurd rfl (hsep r hr)
      | cons c w => exact endsReference_of_isBlank (hw₅ c List.mem_cons_self) _
    have hlast : t.rest.getLast? = some (d.source, String.ofList d.closing) := by
      rw [← slotsAhead_stream t, ht, List.append_assoc, List.singleton_append]
      exact getLast?_slotsAhead _ _ _
    obtain ⟨hstart, hopening⟩ := Cursor.start_eq_before hw₁ hw₂ (head?_operandText hkey s₁) hstream
    refine ⟨⟨.before s₁, .before s₂, .before s₃, .before s₄, ?_, ?_, ?_, ?_, ?_, ?_⟩, hopening,
      hlast⟩
    · rw [hstart]
      exact Cursor.readOperand_before_eq_ok_iff.mpr
        ⟨fun _ _ h => absurd h.1 (by simp), [], key, s₁, blank_nil, hkey, fun _ _ => hs₁, rfl, rfl⟩
    · exact Cursor.readColon_before_eq_ok_iff.mpr ⟨w₃, s₂, hw₃, rfl, rfl⟩
    · exact Cursor.readOperand_before_eq_ok_iff.mpr
        ⟨fun _ _ h => absurd h.1 (by simp), w₄, value, s₃, hw₄, hvalue, hs₃, rfl, rfl⟩
    · have htext : leadingText s₃ = w₅ ++ clause ++ w₆ := by simp [s₃]
      rw [Cursor.before, htext, trim_trim, hclause.trimmed.trim_eq hw₅ hw₆]
      exact hclause
    · refine Cursor.takeSlot?_before_eq_some_iff.mpr ⟨w₅ ++ clause ++ w₆, s₄, ?_, rfl⟩
      simp only [s₃, symbols_append, List.append_assoc]
    · exact Cursor.readEnd_before_eq_ok_iff.mpr
        ⟨d.closing, rfl, fun c hc => Cursor.isClosing_iff.mpr (hclosing c hc)⟩

/-- What is read is derived by the grammar. -/
theorem exists_derives_of_readsAs {t : Template} {d : Derivation} (h : t.ReadsAs d) :
    ∃ opening closing, Derivation.Derives { d with opening, closing } t.stream := by
  obtain ⟨c₁, c₂, c₃, c₄, hkey, hcolon, hvalue, hclause, hsource, hend⟩ := h
  obtain ⟨w₁, s₀, hw₁, hstart, ht⟩ := Cursor.exists_start_eq_before t
  rw [hstart] at hkey
  obtain ⟨-, w₂, key, s₁, hw₂, hkeyText, -, rfl, rfl⟩ := Cursor.readOperand_before_eq_ok_iff.mp hkey
  obtain ⟨w₃, s₂, hw₃, rfl, rfl⟩ := Cursor.readColon_before_eq_ok_iff.mp hcolon
  obtain ⟨-, w₄, value, s₃, hw₄, hvalueText, hends, rfl, rfl⟩ :=
    Cursor.readOperand_before_eq_ok_iff.mp hvalue
  obtain ⟨cs, s₄, rfl, rfl⟩ := Cursor.takeSlot?_before_eq_some_iff.mp hsource
  obtain ⟨closing, rfl, hclosing⟩ := Cursor.readEnd_before_eq_ok_iff.mp hend
  have htext :
      (Cursor.before (symbols cs ++ .slot d.source :: symbols closing)).text = trim cs := by
    rw [Cursor.before, leadingText_symbols_append, leadingText_slot, List.append_nil]
  rw [htext, trim_trim] at hclause
  obtain ⟨w₅, w₆, hw₅, hw₆, hcs⟩ := exists_append_trim_append cs
  -- A reference would take in the first letter of a clause that touches it.
  have hsep : ∀ r, d.value = .reference r → w₅ ≠ [] := by
    rintro r hr rfl
    have hhead := (hends r hr).head
    rw [leadingText_symbols_append, leadingText_slot, List.append_nil, hcs,
      List.nil_append] at hhead
    exact not_endsIdentifier_of_clauseText hclause w₆ hhead
  refine ⟨Cursor.openingBraces t, closing, ?_⟩
  have hstream : t.stream = symbols w₁ ++ symbols (List.replicate (Cursor.openingBraces t) '{') ++
      symbols w₂ ++ key ++ symbols w₃ ++ [.char ':'] ++ symbols w₄ ++ value ++ symbols w₅ ++
      symbols (trim cs) ++ symbols w₆ ++ [.slot d.source] ++ symbols closing := by
    have hsymbols : symbols cs = symbols w₅ ++ (symbols (trim cs) ++ symbols w₆) := by
      rw [← symbols_append, ← symbols_append, ← List.append_assoc, ← hcs]
    rw [ht, hsymbols]
    simp only [List.append_assoc, List.cons_append, List.nil_append]
  rw [hstream]
  exact .intro hw₁ hw₂ hw₃ hw₄ hw₅ hw₆ hkeyText hvalueText hsep hclause
    fun c hc => Cursor.isClosing_iff.mp (hclosing c hc)

/-- The steps of reading are functions, so they give one derivation at most. -/
theorem Template.ReadsAs.parts_unique {t : Template} {d e : Derivation} (hd : t.ReadsAs d)
    (he : t.ReadsAs e) : d.key = e.key ∧ d.value = e.value ∧ d.iteration = e.iteration ∧
      d.names = e.names ∧ d.source = e.source := by
  obtain ⟨c₁, c₂, c₃, c₄, hkey, hcolon, hvalue, hclause, hsource, -⟩ := hd
  obtain ⟨c₁', c₂', c₃', c₄', hkey', hcolon', hvalue', hclause', hsource', -⟩ := he
  obtain ⟨hk, rfl⟩ := Prod.mk.inj (Except.ok.inj (hkey.symm.trans hkey'))
  obtain rfl := Except.ok.inj (hcolon.symm.trans hcolon')
  obtain ⟨hv, rfl⟩ := Prod.mk.inj (Except.ok.inj (hvalue.symm.trans hvalue'))
  obtain ⟨hi, hn⟩ := hclause.unique hclause'
  obtain ⟨hs, -⟩ := Prod.mk.inj (Option.some.inj (hsource.symm.trans hsource'))
  exact ⟨hk, hv, hi, hn, hs⟩

/-- A template has at most one derivation. -/
theorem Derivation.Derives.unique {t : Template} {d e : Derivation} (hd : d.Derives t.stream)
    (he : e.Derives t.stream) : d = e := by
  obtain ⟨hread, hopening, hlast⟩ := readsAs_of_derives hd
  obtain ⟨hread', hopening', hlast'⟩ := readsAs_of_derives he
  obtain ⟨hkey, hvalue, hiteration, hnames, hsource⟩ := hread.parts_unique hread'
  have hclosing : d.closing = e.closing := by
    rw [hlast] at hlast'
    have h := (Prod.mk.inj (Option.some.inj hlast')).2
    rw [← String.toList_ofList (l := d.closing), h, String.toList_ofList]
  have hbraces : d.opening = e.opening := hopening.symm.trans hopening'
  cases d
  cases e
  simp only at hbraces hkey hvalue hiteration hnames hsource hclosing
  subst hbraces hkey hvalue hiteration hnames hsource hclosing
  rfl

/-! ### The checks of reading are validity -/

/-- Reading a key refuses a null or undefined slot, and is otherwise reading a value. -/
private theorem readOperand_key_eq_ok_iff {c c' : Cursor} {o : Operand} :
    c.readOperand .key = .ok (o, c') ↔
      c.readOperand .value = .ok (o, c') ∧ ∀ x, o = .slot x → x.isNullish = false := by
  simp only [Cursor.readOperand]
  split
  · split
    · simp
    · rename_i x c'' _
      cases hx : x.isNullish
      · simp only [reduceCtorEq, Bool.false_eq_true, and_false, if_false, Except.ok.injEq,
          Prod.mk.injEq, iff_self_and]
        rintro ⟨rfl, -⟩ y hy
        rw [← Operand.slot.inj hy, hx]
      · simp only [and_self, if_true, reduceCtorEq, false_and, if_false, Except.ok.injEq,
          Prod.mk.injEq, false_iff, not_and]
        rintro ⟨rfl, -⟩ h
        exact absurd (h x rfl) (by simp [hx])
  · split
    · simp
    · simp only [Except.ok.injEq, Prod.mk.injEq, iff_self_and]
      rintro ⟨rfl, -⟩ x hx
      exact absurd hx (by simp)

private theorem readBindings_eq_ok_iff {c c' : Cursor} {b : Bindings} :
    c.readBindings = .ok (b, c') ↔
      ClauseText b.iteration b.names (trim c.text) ∧ c' = { c with text := [] } := by
  rw [Cursor.readBindings, except_bind_eq_ok_iff]
  constructor
  · rintro ⟨b', hb', h⟩
    obtain ⟨rfl, rfl⟩ := Prod.mk.inj (Except.ok.inj h)
    exact ⟨readClause_eq_ok_iff.mp hb', rfl⟩
  · rintro ⟨hb, rfl⟩
    exact ⟨b, readClause_eq_ok_iff.mpr hb, rfl⟩

private theorem readEntries_eq_ok_iff {c c' : Cursor} {iteration : Iteration} {es : Entries} :
    c.readEntries iteration = .ok (es, c') ↔
      ∃ x, c.takeSlot? = some (x, c') ∧ EntriesOf iteration x es := by
  rw [Cursor.readEntries]
  split
  · rename_i hslot
    simp [hslot]
  · rename_i x c'' hslot
    rw [except_bind_eq_ok_iff]
    constructor
    · rintro ⟨es', hes, h⟩
      obtain ⟨rfl, rfl⟩ := Prod.mk.inj (Except.ok.inj h)
      exact ⟨x, hslot, Entries.ofSlot_eq_ok_iff.mp hes⟩
    · rintro ⟨y, hy, hes⟩
      obtain ⟨rfl, rfl⟩ := Prod.mk.inj (Option.some.inj (hslot.symm.trans hy))
      exact ⟨es, Entries.ofSlot_eq_ok_iff.mpr hes, rfl⟩

/-- Reading succeeds when all its steps do. -/
private theorem ofTemplate_eq_ok_iff {t : Template} {p : Plan} :
    Plan.ofTemplate t = .ok p ↔
      ∃ key c₁ c₂ value c₃ b c₄ es c₅, (Cursor.start t).readOperand .key = .ok (key, c₁) ∧
        c₁.readColon = .ok c₂ ∧ c₂.readOperand .value = .ok (value, c₃) ∧
        c₃.readBindings = .ok (b, c₄) ∧ c₄.readEntries b.iteration = .ok (es, c₅) ∧
        c₅.readEnd = .ok () ∧ Provider.bind b key = .ok p.key ∧
        Provider.bind b value = .ok p.value ∧ p.bindings = b ∧ p.entries = es := by
  simp only [Plan.ofTemplate, except_bind_eq_ok_iff, Prod.exists]
  constructor
  · rintro ⟨key, c₁, hkey, c₂, hcolon, value, c₃, hvalue, b, c₄, hclause, es, c₅, hsource, ⟨⟩, hend,
      kp, hkp, vp, hvp, h⟩
    obtain rfl := Except.ok.inj h
    exact ⟨key, c₁, c₂, value, c₃, b, c₄, es, c₅, hkey, hcolon, hvalue, hclause, hsource, hend, hkp,
      hvp, rfl, rfl⟩
  · rintro ⟨key, c₁, c₂, value, c₃, b, c₄, es, c₅, hkey, hcolon, hvalue, hclause, hsource, hend,
      hkp, hvp, rfl, rfl⟩
    exact ⟨key, c₁, hkey, c₂, hcolon, value, c₃, hvalue, _, c₄, hclause, _, c₅, hsource, (), hend,
      _, hkp, _, hvp, rfl⟩

theorem Slot.isNullish_eq_false_iff {x : Slot} :
    x.isNullish = false ↔ ∀ v, x = .value v → v ≠ .null ∧ v ≠ .undefined := by
  cases x with
  | value v => cases v <;> simp [Slot.isNullish, Value.isNullish, Value.kind]
  | function f => simp [Slot.isNullish]

theorem Slot.isNullish_iff {x : Slot} :
    x.isNullish = true ↔ x = .value .null ∨ x = .value .undefined := by
  cases x with
  | value v => cases v <;> simp [Slot.isNullish, Value.isNullish, Value.kind]
  | function f => simp [Slot.isNullish]

theorem ClauseText.names_ne_nil {iteration : Iteration} {names : List String} {cs : List Char}
    (h : ClauseText iteration names cs) : names ≠ [] := by
  cases h with
  | implicit => simp
  | named _ _ _ hnames => exact hnames.ne_nil

theorem Reference.length_parts_eq_one_iff {r : Reference} : r.parts.length = 1 ↔ r.tail = [] := by
  simp [Reference.parts]

/-- Reading accepts the derivations that are valid, and gives their plans. -/
theorem ofTemplate_eq_ok_iff_readsAs {t : Template} {p : Plan} :
    Plan.ofTemplate t = .ok p ↔ ∃ d, t.ReadsAs d ∧ d.Valid ∧ d.Denotes p := by
  rw [ofTemplate_eq_ok_iff]
  constructor
  · rintro ⟨key, c₁, c₂, value, c₃, b, c₄, es, c₅, hreadKey, hcolon, hvalue, hbindings, hsource,
      hend, hkp, hvp, rfl, rfl⟩
    obtain ⟨hkey, hnullish⟩ := readOperand_key_eq_ok_iff.mp hreadKey
    obtain ⟨hclause, rfl⟩ := readBindings_eq_ok_iff.mp hbindings
    obtain ⟨x, hslot, hentries⟩ := readEntries_eq_ok_iff.mp hsource
    obtain ⟨hkeyBound, hkp⟩ := Provider.bind_eq_ok_iff.mp hkp
    obtain ⟨hvalueBound, hvp⟩ := Provider.bind_eq_ok_iff.mp hvp
    have hbound : ∀ r, key = .reference r ∨ value = .reference r → r.head ∈ p.bindings.names ∧
        (p.bindings.iteration = .keys → r.tail = []) := by
      rintro r (hr | hr)
      · exact hkeyBound r hr
      · exact hvalueBound r hr
    refine ⟨⟨0, key, value, p.bindings.iteration, p.bindings.names, x, []⟩,
      ⟨c₁, c₂, c₃, c₅, hkey, hcolon, hvalue, hclause, hslot, hend⟩, ?_, ?_⟩
    · refine ⟨fun v hv => Slot.isNullish_eq_false_iff.mp (hnullish _ hv) v rfl,
        exists_entriesOf_iff.mp ⟨_, hentries⟩, fun hkeys => ?_, fun r hr => (hbound r hr).1,
        fun r hr hkeys => Reference.length_parts_eq_one_iff.mpr ((hbound r hr).2 hkeys)⟩
      have hle := p.bindings.length_le_one hkeys
      have hpos := List.length_pos_iff.mpr hclause.names_ne_nil
      exact Nat.le_antisymm hle hpos
    · exact ⟨hkp, hvp, rfl, rfl, hentries⟩
  · rintro ⟨d, ⟨c₁, c₂, c₃, c₅, hkey, hcolon, hvalue, hclause, hslot, hend⟩, hvalid, hdenotes⟩
    have hbound : ∀ r, d.key = .reference r ∨ d.value = .reference r →
        r.head ∈ p.bindings.names ∧ (p.bindings.iteration = .keys → r.tail = []) := by
      intro r hr
      rw [hdenotes.names, hdenotes.iteration]
      exact ⟨hvalid.bound r hr, fun hkeys =>
        Reference.length_parts_eq_one_iff.mp (hvalid.path r hr hkeys)⟩
    have hkp := hdenotes.key
    have hvp := hdenotes.value
    rw [← hdenotes.names] at hkp hvp hclause
    rw [← hdenotes.iteration] at hclause
    refine ⟨d.key, c₁, c₂, d.value, c₃, p.bindings, _, p.entries, c₅, ?_, hcolon, hvalue,
      readBindings_eq_ok_iff.mpr ⟨hclause, rfl⟩, ?_, hend, ?_, ?_, rfl, rfl⟩
    · refine readOperand_key_eq_ok_iff.mpr ⟨hkey, fun x hx => ?_⟩
      exact Slot.isNullish_eq_false_iff.mpr fun v hv => hvalid.key v (hv ▸ hx)
    · exact readEntries_eq_ok_iff.mpr ⟨d.source, hslot, hdenotes.iteration ▸ hdenotes.entries⟩
    · exact Provider.bind_eq_ok_iff.mpr ⟨fun r hr => hbound r (Or.inl hr), hkp⟩
    · exact Provider.bind_eq_ok_iff.mpr ⟨fun r hr => hbound r (Or.inr hr), hvp⟩

/-- The derivation of a template that is read is valid and stands for the plan. -/
theorem Derivation.Derives.valid_and_denotes {t : Template} {d : Derivation} {p : Plan}
    (hd : d.Derives t.stream) (hp : Plan.ofTemplate t = .ok p) : d.Valid ∧ d.Denotes p := by
  obtain ⟨e, hread, hvalid, hdenotes⟩ := ofTemplate_eq_ok_iff_readsAs.mp hp
  obtain ⟨opening, closing, he⟩ := exists_derives_of_readsAs hread
  obtain rfl := hd.unique he
  exact ⟨⟨hvalid.key, hvalid.source, hvalid.names, hvalid.bound, hvalid.path⟩,
    ⟨hdenotes.key, hdenotes.value, hdenotes.iteration, hdenotes.names, hdenotes.entries⟩⟩

/-! ### Reading accepts the grammar -/

/-- A valid derivation stands for a plan. -/
private theorem exists_denotes {d : Derivation} (hd : d.Valid) : ∃ p, d.Denotes p := by
  obtain ⟨key, hkey⟩ := exists_providerOf fun r hr => hd.bound r (Or.inl hr)
  obtain ⟨value, hvalue⟩ := exists_providerOf fun r hr => hd.bound r (Or.inr hr)
  obtain ⟨entries, hentries⟩ := exists_entriesOf_iff.mpr hd.source
  exact ⟨⟨key, value, ⟨d.iteration, d.names, fun h => (hd.names h).le⟩, entries⟩, hkey, hvalue, rfl,
    rfl, hentries⟩

/-- Reading accepts exactly the templates with a valid derivation, it gives the plan that the
derivation stands for, and no template has two derivations. -/
theorem ofTemplate_accepts_grammar (t : Template) :
    ((∃ p, Plan.ofTemplate t = .ok p) ↔ ∃ d : Derivation, d.Derives t.stream ∧ d.Valid) ∧
    (∀ p, Plan.ofTemplate t = .ok p ↔
      ∃ d : Derivation, d.Derives t.stream ∧ d.Valid ∧ d.Denotes p) ∧
    ∀ d e : Derivation, d.Derives t.stream → e.Derives t.stream → d = e := by
  have hplan : ∀ p, Plan.ofTemplate t = .ok p ↔
      ∃ d : Derivation, d.Derives t.stream ∧ d.Valid ∧ d.Denotes p := by
    intro p
    rw [ofTemplate_eq_ok_iff_readsAs]
    constructor
    · rintro ⟨d, hread, hvalid, hdenotes⟩
      obtain ⟨opening, closing, hderives⟩ := exists_derives_of_readsAs hread
      exact ⟨{ d with opening, closing }, hderives,
        ⟨hvalid.key, hvalid.source, hvalid.names, hvalid.bound, hvalid.path⟩,
        ⟨hdenotes.key, hdenotes.value, hdenotes.iteration, hdenotes.names, hdenotes.entries⟩⟩
    · rintro ⟨d, hderives, hvalid, hdenotes⟩
      exact ⟨d, (readsAs_of_derives hderives).1, hvalid, hdenotes⟩
  refine ⟨⟨?_, ?_⟩, hplan, fun d e hd he => hd.unique he⟩
  · rintro ⟨p, hp⟩
    obtain ⟨d, hderives, hvalid, -⟩ := (hplan p).mp hp
    exact ⟨d, hderives, hvalid⟩
  · rintro ⟨d, hderives, hvalid⟩
    obtain ⟨p, hdenotes⟩ := exists_denotes hvalid
    exact ⟨p, (hplan p).mpr ⟨d, hderives, hvalid, hdenotes⟩⟩

/-- Keywords are names like any others: this template binds `for` and `in`. -/
theorem ofTemplate_accepts_keywords :
    let t : Template := ⟨"\x7bin: for for for, in of ", [(.value (.array []), "\x7d")]⟩
    let d : Derivation := ⟨1, .reference ⟨"in", []⟩, .reference ⟨"for", []⟩, .each, ["for", "in"],
      .value (.array []), ['}']⟩
    (∃ p, Plan.ofTemplate t = .ok p) ∧ ∀ e : Derivation, e.Derives t.stream → e = d := by
  intro t d
  have hblank : Blank [' '] := by decide
  have hnames : NamesText ["for", "in"] "for, in".toList :=
    .more (u := []) (by decide) blank_nil hblank (.one (by decide))
  have hclause : ClauseText .each ["for", "in"] "for for, in of".toList :=
    .named (u := [' ']) (v := [' ']) (show Iteration.each ≠ .implicit by decide) hblank (by simp)
      hnames hblank (by simp)
  have hkey : Reference.IsWellFormed ⟨"in", []⟩ := by decide
  have hvalue : Reference.IsWellFormed ⟨"for", []⟩ := by decide
  have hderives : d.Derives t.stream := by
    have h := Derivation.Derives.intro (d := d) blank_nil blank_nil blank_nil hblank hblank hblank
      (.reference hkey) (.reference hvalue) (by simp) hclause (by simp [d])
    convert h using 1
    simp [Template.stream, symbols, t, d, Reference.raw, Reference.parts]
  have hbound : ∀ r, d.key = .reference r ∨ d.value = .reference r → r.head ∈ d.names := by
    rintro r (hr | hr)
    · rw [← Operand.reference.inj hr]
      decide
    · rw [← Operand.reference.inj hr]
      decide
  have hvalid : d.Valid := ⟨by simp [d], Or.inl ⟨[], rfl⟩, by simp [d], hbound, by simp [d]⟩
  exact ⟨(ofTemplate_accepts_grammar t).1.mpr ⟨d, hderives, hvalid⟩,
    fun e he => (ofTemplate_accepts_grammar t).2.2 e d he hderives⟩

end Comprehension
