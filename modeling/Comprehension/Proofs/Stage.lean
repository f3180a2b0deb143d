import Comprehension.Proofs.Fault

/-!
# The stages of reading

Reading has nine stages: the key, the colon, the value, the clause, the number of its names, the
source, the end, and the names of the key and of the value.  `Template.Reaches` says on the stream
of a template alone that all stages before a given one are passed, and what they leave of the
stream; `Derivation.Fault` says what is wrong at a stage.  Reading fails with the fault of a stage
that is reached, and succeeds where there is none.

## Main definitions

* `Stage`, `Template.Reaches`, `Derivation.Fault`.
* `Derivation.resume`: what a stage and the stages after it do.

## Main results

* `Template.Reaches.ofTemplate_eq_resume`: reading is what is left to do where a stage is reached.
* `Template.Reaches.ofTemplate_eq_error`, `Template.Faultless.exists_plan`: reading fails with a
  fault that is reached, and succeeds without one.
-/

namespace Comprehension

open Text

/-- The stages of reading. -/
inductive Stage
  | key
  | colon
  | value
  | clause
  | arity
  | source
  | ending
  | keyName
  | valueName
  deriving DecidableEq

/-- The place of a stage in the order of reading. -/
def Stage.rank : Stage → Nat
  | key => 0
  | colon => 1
  | value => 2
  | clause => 3
  | arity => 4
  | source => 5
  | ending => 6
  | keyName => 7
  | valueName => 8

theorem Stage.rank_injective : Function.Injective Stage.rank := by
  intro a b h
  cases a <;> cases b <;> first | rfl | exact absurd h (by decide)

/-! ### What the stages pass -/

/-- A template opens with a run of `n` braces, and a stream follows the run, which it does not
extend.  Where there are no braces the white space in front belongs to the opening. -/
structure Template.Opens (t : Template) (n : Nat) (s : List Symbol) : Prop where
  stream : ∃ w, Blank w ∧ t.stream = symbols w ++ (symbols (List.replicate n '{') ++ s)
  brace : ∀ c ∈ (leadingText s).head?, c ≠ '{'
  blank : n = 0 → ∀ c ∈ (leadingText s).head?, isBlank c = false

/-- A stream starts with white space and an operand, and a second stream follows, which does not
extend an operand that is a reference. -/
inductive OperandAt (o : Operand) : List Symbol → List Symbol → Prop
  | intro {w : List Char} {k s : List Symbol} :
      Blank w → OperandText o k → (∀ r, o = .reference r → EndsReference (leadingText s)) →
      OperandAt o (symbols w ++ (k ++ s)) s

/-- The stages before the given one are passed with the parts of a derivation, and a stream is left.
The parts that later stages read are free. -/
inductive Template.Reaches (t : Template) (d : Derivation) : Stage → List Symbol → Prop
  | key {s : List Symbol} : t.Opens d.opening s → Reaches t d .key s
  | colon {s s' : List Symbol} :
      Reaches t d .key s → OperandAt d.key s s' →
      (∀ v, d.key = .slot (.value v) → v ≠ .null ∧ v ≠ .undefined) → Reaches t d .colon s'
  | value {w : List Char} {s : List Symbol} :
      Blank w → Reaches t d .colon (symbols w ++ .char ':' :: s) → Reaches t d .value s
  | clause {s s' : List Symbol} :
      Reaches t d .value s → OperandAt d.value s s' → Reaches t d .clause s'
  | arity {cs : List Char} {s : List Symbol} :
      leadingText s = [] → ClauseText d.iteration d.names (trim cs) →
      Reaches t d .clause (symbols cs ++ s) → Reaches t d .arity s
  | source {s : List Symbol} :
      (d.iteration = .keys → d.names.length ≤ 1) → Reaches t d .arity s → Reaches t d .source s
  | ending {s : List Symbol} :
      (∃ entries, EntriesOf d.iteration d.source entries) →
      Reaches t d .source (.slot d.source :: s) → Reaches t d .ending s
  | keyName :
      (∀ c ∈ d.closing, c = '}' ∨ isBlank c = true) →
      Reaches t d .ending (symbols d.closing) → Reaches t d .keyName []
  | valueName {s : List Symbol} :
      (∀ e, ¬ NameFault d.iteration d.names d.key e) → Reaches t d .keyName s →
      Reaches t d .valueName s

/-- What is wrong at a stage, given what is left of the stream. -/
inductive Derivation.Fault (d : Derivation) : Stage → List Symbol → ParseError → Prop
  | key {s : List Symbol} {e : ParseError} : OperandFault .key s e → Fault d .key s e
  | colon {s : List Symbol} :
      (unread s).head? ≠ some ':' →
      Fault d .colon s (.missingColon (String.ofList (unread s)))
  | value {s : List Symbol} {e : ParseError} : OperandFault .value s e → Fault d .value s e
  | clause {s : List Symbol} :
      (∀ iteration names, ¬ ClauseText iteration names (unread s)) →
      Fault d .clause s (.invalidIteration (String.ofList (unread s)))
  | arity {s : List Symbol} :
      d.iteration = .keys → 1 < d.names.length → Fault d .arity s (.severalKeyNames d.names)
  | source {s : List Symbol} {e : ParseError} :
      SourceFault d.iteration s e → Fault d .source s e
  | ending {s : List Symbol} {e : ParseError} : EndFault s e → Fault d .ending s e
  | keyName {s : List Symbol} {e : ParseError} :
      NameFault d.iteration d.names d.key e → Fault d .keyName s e
  | valueName {s : List Symbol} {e : ParseError} :
      NameFault d.iteration d.names d.value e → Fault d .valueName s e

/-! ### What is left to do at a stage -/

namespace Plan

/-- Reading from the names on. -/
def fromNames (key value : Operand) (b : Bindings) (entries : Entries) :
    Except ParseError Plan := do
  let key ← Provider.bind b key
  let value ← Provider.bind b value
  return ⟨key, value, b, entries⟩

/-- Reading from the end of the template on. -/
def fromEnding (key value : Operand) (b : Bindings) (entries : Entries) (c : Cursor) :
    Except ParseError Plan := do
  c.readEnd
  fromNames key value b entries

/-- Reading from the source on. -/
def fromSource (key value : Operand) (b : Bindings) (c : Cursor) : Except ParseError Plan := do
  let (entries, c) ← c.readEntries b.iteration
  fromEnding key value b entries c

/-- Reading from the clause on. -/
def fromClause (key value : Operand) (c : Cursor) : Except ParseError Plan := do
  let (b, c) ← c.readBindings
  fromSource key value b c

/-- Reading from the value on. -/
def fromValue (key : Operand) (c : Cursor) : Except ParseError Plan := do
  let (value, c) ← c.readOperand .value
  fromClause key value c

/-- Reading from the colon on. -/
def fromColon (key : Operand) (c : Cursor) : Except ParseError Plan := do
  let c ← c.readColon
  fromValue key c

theorem ofTemplate_eq_fromColon (t : Template) :
    ofTemplate t = (Cursor.start t).readOperand .key >>= fun p => fromColon p.1 p.2 := rfl

end Plan

/-- What a stage and the stages after it do with a cursor, when the stages before it have given the
parts of a derivation. -/
def Derivation.resume (d : Derivation) : Stage → Cursor → Except ParseError Plan
  | .key, c => do
    let (key, c) ← c.readOperand .key
    Plan.fromColon key c
  | .colon, c => Plan.fromColon d.key c
  | .value, c => Plan.fromValue d.key c
  | .clause, c => Plan.fromClause d.key d.value c
  | .arity, c | .source, c => do
    let b ← Bindings.ofNames d.iteration d.names
    Plan.fromSource d.key d.value b c
  | .ending, c => do
    let b ← Bindings.ofNames d.iteration d.names
    let entries ← Entries.ofSlot b.iteration d.source
    Plan.fromEnding d.key d.value b entries c
  | .keyName, _ | .valueName, _ => do
    let b ← Bindings.ofNames d.iteration d.names
    let entries ← Entries.ofSlot b.iteration d.source
    Plan.fromNames d.key d.value b entries

/-! ### Each stage that is passed leads to the next -/

theorem OperandAt.readOperand {half : Half} {o : Operand} {s s' : List Symbol}
    (h : OperandAt o s s') (ho : half = .key → o.isNullish = false) :
    (Cursor.before s).readOperand half = .ok (o, .before s') := by
  obtain ⟨hw, hk, hends⟩ := h
  refine Cursor.readOperand_before_eq_ok_iff.mpr ⟨?_, _, _, _, hw, hk, hends, rfl, rfl⟩
  rintro x rfl ⟨hhalf, hx⟩
  have hfalse : x.isNullish = false := ho hhalf
  rw [hx] at hfalse
  exact absurd hfalse (by simp)

theorem operandAt_of_readOperand {half : Half} {o : Operand} {s : List Symbol} {c : Cursor}
    (h : (Cursor.before s).readOperand half = .ok (o, c)) :
    ∃ s', c = .before s' ∧ OperandAt o s s' ∧ (half = .key → o.isNullish = false) := by
  obtain ⟨ho, w, k, s', hw, hk, hends, rfl, rfl⟩ := Cursor.readOperand_before_eq_ok_iff.mp h
  refine ⟨s', rfl, .intro hw hk hends, fun hhalf => ?_⟩
  cases o with
  | reference r => rfl
  | slot x =>
    have hx : ¬ (half = .key ∧ x.isNullish = true) := ho x rfl
    exact Bool.not_eq_true _ ▸ fun hnullish => hx ⟨hhalf, hnullish⟩

/-- The clause is read from all the text before the next slot. -/
theorem Cursor.readBindings_before {s : List Symbol} (hs : leadingText s = []) (cs : List Char) :
    (before (symbols cs ++ s)).readBindings = do
      let b ← readClause (trim cs)
      return (b, before s) := by
  have hbefore : before s = ⟨[], slotsAhead s⟩ := by
    rw [before, hs]
    rfl
  rw [readBindings, hbefore, before, leadingText_symbols_append, hs, List.append_nil, trim_trim,
    slotsAhead_symbols_append]

/-- Reading starts behind the braces that a template opens with. -/
theorem Template.Opens.start_eq {t : Template} {n : Nat} {s : List Symbol} (h : t.Opens n s) :
    Cursor.start t = .before s := by
  obtain ⟨w, hw, hstream⟩ := h.stream
  have hlead : t.lead.toList = w ++ (List.replicate n '{' ++ leadingText s) := by
    rw [← leadingText_stream t, hstream]
    simp only [leadingText_symbols_append]
  have hrest : t.rest = slotsAhead s := by
    rw [← slotsAhead_stream t, hstream]
    simp only [slotsAhead_symbols_append]
  have htrim : trim (List.replicate n '{' ++ leadingText s) =
      List.replicate n '{' ++ trimEnd (leadingText s) := by
    cases n with
    | zero => rw [List.replicate_zero, List.nil_append, trim, trimStart_eq_self (h.blank rfl)]; rfl
    | succ n => exact (Cursor.trimmed_braces _).trim_append (by simp) _
  have hbrace : ∀ c ∈ (trimEnd (leadingText s)).head?, c ≠ '{' := by
    intro c hc
    obtain ⟨v, -, htext⟩ := exists_trimEnd_append (leadingText s)
    refine h.brace c ?_
    rw [htext, List.head?_append, Option.mem_def.mp hc]
    rfl
  rw [Cursor.start, hlead, trim_append_left hw, htrim, Cursor.stripRun_braces_append n hbrace,
    trim_trimEnd, hrest, Cursor.before]

/-- Every template opens with a number of braces. -/
theorem exists_opens (t : Template) : ∃ n s, t.Opens n s := by
  obtain ⟨s, hs, hs₀⟩ := exists_eq_symbols_leadingText_append t.stream
  let rest := trimStart t.lead.toList
  have hbraces : rest.takeWhile (· == '{') =
      List.replicate (rest.takeWhile (· == '{')).length '{' :=
    List.eq_replicate_iff.mpr ⟨rfl, fun c hc => by simpa using List.mem_takeWhile_imp hc⟩
  have htext : leadingText (symbols (stripRun '{' rest) ++ s) = stripRun '{' rest := by
    rw [leadingText_symbols_append, hs₀, List.append_nil]
  obtain ⟨w, hw, hlead⟩ := exists_append_trimStart t.lead.toList
  refine ⟨(rest.takeWhile (· == '{')).length, symbols (stripRun '{' rest) ++ s, ⟨w, hw, ?_⟩, ?_, ?_⟩
  · calc t.stream = symbols t.lead.toList ++ s := by rw [← leadingText_stream t, ← hs]
      _ = symbols (w ++ (rest.takeWhile (· == '{') ++ stripRun '{' rest)) ++ s := by
        rw [stripRun, List.takeWhile_append_dropWhile, ← hlead]
      _ = _ := by rw [← hbraces]; simp only [symbols_append, List.append_assoc]
  · rw [htext]
    intro c hc
    have hnot := List.head?_dropWhile_not (· == '{') rest
    rw [stripRun, Option.mem_def] at hc
    rw [hc] at hnot
    simpa using hnot
  · intro h0 c hc
    have hrest : stripRun '{' rest = rest := by
      have happend := List.takeWhile_append_dropWhile (p := (· == '{')) (l := rest)
      rwa [List.eq_nil_of_length_eq_zero h0, List.nil_append] at happend
    rw [htext, hrest] at hc
    exact head?_trimStart hc

/-- Reading is what is left to do where a stage is reached. -/
theorem Template.Reaches.ofTemplate_eq_resume {t : Template} {d : Derivation} {stage : Stage}
    {s : List Symbol} (h : t.Reaches d stage s) :
    Plan.ofTemplate t = d.resume stage (.before s) := by
  induction h with
  | key hopens => rw [Plan.ofTemplate_eq_fromColon, hopens.start_eq]; rfl
  | colon _ hkey hnullish ih =>
    have hread := hkey.readOperand fun _ : Half.key = .key =>
      Operand.isNullish_eq_false_iff.mpr hnullish
    rw [ih, Derivation.resume, hread]
    rfl
  | @value w s hw _ ih =>
    have hcolon : (Cursor.before (symbols w ++ .char ':' :: s)).readColon = .ok (.before s) :=
      Cursor.readColon_before_eq_ok_iff.mpr ⟨w, s, hw, rfl, rfl⟩
    rw [ih, Derivation.resume, Plan.fromColon, hcolon]
    rfl
  | clause _ hvalue ih =>
    rw [ih, Derivation.resume, Plan.fromValue, hvalue.readOperand fun h => absurd h (by simp)]
    rfl
  | arity hs hclause _ ih =>
    rw [ih, Derivation.resume, Plan.fromClause, Cursor.readBindings_before hs,
      readClause_of_clauseText hclause, Derivation.resume]
    cases Bindings.ofNames d.iteration d.names <;> rfl
  | source _ _ ih => exact ih
  | ending hentries _ ih =>
    rw [ih, Derivation.resume, Derivation.resume]
    cases Bindings.ofNames d.iteration d.names with
    | error e => rfl
    | ok b =>
      simp only [bind, Except.bind, Plan.fromSource, Cursor.readEntries,
        Cursor.takeSlot?_before_slot, pure, Except.pure]
      cases Entries.ofSlot b.iteration d.source <;> rfl
  | keyName hclosing _ ih =>
    have hend : (Cursor.before (symbols d.closing)).readEnd = .ok () :=
      Cursor.readEnd_before_eq_ok_iff.mpr
        ⟨d.closing, rfl, fun c hc => Cursor.isClosing_iff.mpr (hclosing c hc)⟩
    rw [ih, Derivation.resume]
    simp only [Plan.fromEnding, hend]
    rfl
  | valueName _ _ ih => exact ih

/-! ### A fault at a stage that is reached -/

/-- A stage is reached through the stages before it. -/
theorem Template.Reaches.earlier {t : Template} {d : Derivation} {stage earlier : Stage}
    {s : List Symbol} (h : t.Reaches d stage s) (hle : earlier.rank ≤ stage.rank) :
    ∃ s', t.Reaches d earlier s' := by
  -- An earlier stage is the one that the induction is at, or one before it.
  have hstep (stage : Stage) {next : Stage} {s : List Symbol} (hnext : next.rank = stage.rank + 1)
      (hreach : t.Reaches d next s) (hle : earlier.rank ≤ next.rank)
      (ih : earlier.rank ≤ stage.rank → ∃ s', t.Reaches d earlier s') :
      ∃ s', t.Reaches d earlier s' := by
    rcases Nat.lt_or_ge stage.rank earlier.rank with hlt | hge
    · obtain rfl : earlier = next := Stage.rank_injective (by omega)
      exact ⟨s, hreach⟩
    · exact ih hge
  induction h with
  | @key s hopens =>
    obtain rfl : earlier = .key := Stage.rank_injective (Nat.le_zero.mp hle)
    exact ⟨s, .key hopens⟩
  | colon hreach hkey hnullish ih => exact hstep .key rfl (.colon hreach hkey hnullish) hle ih
  | value hw hreach ih => exact hstep .colon rfl (.value hw hreach) hle ih
  | clause hreach hvalue ih => exact hstep .value rfl (.clause hreach hvalue) hle ih
  | arity hs hclause hreach ih => exact hstep .clause rfl (.arity hs hclause hreach) hle ih
  | source harity hreach ih => exact hstep .arity rfl (.source harity hreach) hle ih
  | ending hentries hreach ih => exact hstep .source rfl (.ending hentries hreach) hle ih
  | keyName hclosing hreach ih => exact hstep .ending rfl (.keyName hclosing hreach) hle ih
  | valueName hkey hreach ih => exact hstep .keyName rfl (.valueName hkey hreach) hle ih

section Reached

variable {t : Template} {d : Derivation} {stage : Stage} {s : List Symbol} {e : ParseError}

/-- From the source on, the names are bound. -/
theorem Template.Reaches.exists_ofNames (h : t.Reaches d stage s)
    (hstage : Stage.source.rank ≤ stage.rank) :
    ∃ b, Bindings.ofNames d.iteration d.names = .ok b ∧ b.iteration = d.iteration ∧
      b.names = d.names := by
  obtain ⟨s', hsource⟩ := h.earlier hstage
  cases hsource with
  | source harity _ => exact ⟨⟨d.iteration, d.names, harity⟩, dif_pos harity, rfl, rfl⟩

/-- From the end on, the source has entries. -/
theorem Template.Reaches.exists_entriesOf (h : t.Reaches d stage s)
    (hstage : Stage.ending.rank ≤ stage.rank) :
    ∃ entries, EntriesOf d.iteration d.source entries := by
  obtain ⟨s', hending⟩ := h.earlier hstage
  cases hending with
  | ending hentries _ => exact hentries

/-- From the end on, names and entries are taken. -/
theorem Template.Reaches.exists_ofSlot (h : t.Reaches d stage s)
    (hstage : Stage.ending.rank ≤ stage.rank) :
    ∃ b entries, Bindings.ofNames d.iteration d.names = .ok b ∧
      Entries.ofSlot b.iteration d.source = .ok entries ∧ b.iteration = d.iteration ∧
      b.names = d.names := by
  obtain ⟨b, hb, hiteration, hnames⟩ := h.exists_ofNames (Nat.le_trans (by decide) hstage)
  obtain ⟨entries, hentries⟩ := h.exists_entriesOf hstage
  exact ⟨b, entries, hb, Entries.ofSlot_eq_ok_iff.mpr (hiteration ▸ hentries), hiteration, hnames⟩

/-- Behind the end, what is left to do are the names. -/
theorem Template.Reaches.exists_eq_fromNames (h : t.Reaches d stage s)
    (hstage : Stage.keyName.rank ≤ stage.rank) :
    ∃ b entries, b.iteration = d.iteration ∧ b.names = d.names ∧
      Plan.ofTemplate t = Plan.fromNames d.key d.value b entries := by
  obtain ⟨b, entries, hb, hentries, hiteration, hnames⟩ :=
    h.exists_ofSlot (Nat.le_trans (by decide) hstage)
  obtain ⟨s', hkeyName⟩ := h.earlier hstage
  refine ⟨b, entries, hiteration, hnames, ?_⟩
  rw [hkeyName.ofTemplate_eq_resume, Derivation.resume, hb]
  simp only [bind, Except.bind, hentries]

/-- An operand whose name has no fault is bound. -/
theorem Provider.exists_bind_eq_ok {b : Bindings} {o : Operand}
    (h : ∀ e, ¬ NameFault b.iteration b.names o e) : ∃ p, Provider.bind b o = .ok p :=
  exists_eq_ok_of_forall_ne_error fun e he => h e (Provider.bind_eq_error_iff.mp he)

/-- A fault at a stage that is reached is the error of reading. -/
theorem Template.Reaches.ofTemplate_eq_error (h : t.Reaches d stage s) (hf : d.Fault stage s e) :
    Plan.ofTemplate t = .error e := by
  cases hf with
  | key hkey =>
    rw [h.ofTemplate_eq_resume, Derivation.resume,
      Cursor.readOperand_before_eq_error_iff.mpr hkey]
    rfl
  | colon hcolon =>
    rw [h.ofTemplate_eq_resume, Derivation.resume, Plan.fromColon,
      Cursor.readColon_before_eq_error_iff.mpr ⟨hcolon, rfl⟩]
    rfl
  | value hvalue =>
    rw [h.ofTemplate_eq_resume, Derivation.resume, Plan.fromValue,
      Cursor.readOperand_before_eq_error_iff.mpr hvalue]
    rfl
  | clause hclause =>
    rw [h.ofTemplate_eq_resume, Derivation.resume, Plan.fromClause, Cursor.readBindings,
      Cursor.text_before, unread, trim_trim, ← unread, readClause_eq_error hclause]
    rfl
  | arity hkeys hlength =>
    have hnames : ¬ (d.iteration = .keys → d.names.length ≤ 1) := fun h => by
      have hle := h hkeys
      omega
    rw [h.ofTemplate_eq_resume, Derivation.resume, Bindings.ofNames, dif_neg hnames]
    rfl
  | source hsource =>
    obtain ⟨b, hb, hiteration, -⟩ := h.exists_ofNames le_rfl
    have hs : leadingText s = [] := by
      cases h with
      | source _ harity =>
        cases harity with
        | arity hs => exact hs
    rw [h.ofTemplate_eq_resume, Derivation.resume, hb]
    simp only [bind, Except.bind, Plan.fromSource]
    rw [hiteration, (Cursor.readEntries_before_eq_error_iff hs).mpr hsource]
  | ending hend =>
    obtain ⟨b, entries, hb, hentries, -⟩ := h.exists_ofSlot le_rfl
    rw [h.ofTemplate_eq_resume, Derivation.resume, hb]
    simp only [bind, Except.bind, hentries, Plan.fromEnding,
      Cursor.readEnd_before_eq_error_iff.mpr hend]
  | keyName hkey =>
    obtain ⟨b, entries, hiteration, hnames, hresume⟩ := h.exists_eq_fromNames le_rfl
    rw [← hiteration, ← hnames] at hkey
    rw [hresume, Plan.fromNames, Provider.bind_eq_error_iff.mpr hkey]
    rfl
  | valueName hvalue =>
    obtain ⟨b, entries, hiteration, hnames, hresume⟩ := h.exists_eq_fromNames (by decide)
    cases h with
    | valueName hkey _ =>
      rw [← hiteration, ← hnames] at hkey hvalue
      obtain ⟨key, hkey⟩ := Provider.exists_bind_eq_ok hkey
      rw [hresume, Plan.fromNames, hkey]
      simp only [bind, Except.bind, Provider.bind_eq_error_iff.mpr hvalue]

/-- A source without a fault is a slot with entries. -/
theorem exists_source_of_forall_not_fault (iteration : Iteration) (hs : leadingText s = [])
    (h : ∀ e, ¬ SourceFault iteration s e) :
    ∃ x s', s = .slot x :: s' ∧ ∃ entries, EntriesOf iteration x entries := by
  cases s with
  | nil => exact absurd .absent (h _)
  | cons y s =>
    cases y with
    | char c => exact absurd hs (List.cons_ne_nil _ _)
    | slot x =>
      refine ⟨x, s, rfl, ?_⟩
      by_contra hnone
      exact h _ (.unwalkable (not_exists.mp hnone))

/-- No stage that is reached has a fault. -/
def Template.Faultless (t : Template) : Prop :=
  ∀ stage d s e, t.Reaches d stage s → ¬ d.Fault stage s e

namespace Template.Faultless

/-- Stands for the parts of a derivation that are not yet read. -/
private abbrev unreadSlot : Slot := .value .undefined

/-- A key and a colon are read. -/
private theorem exists_reaches_value (h : t.Faultless) :
    ∃ n key s, ∀ value iteration names source closing,
      t.Reaches ⟨n, key, value, iteration, names, source, closing⟩ .value s := by
  obtain ⟨n, s₀, hopens⟩ := exists_opens t
  have h₀ key value iteration names source closing :
      t.Reaches ⟨n, key, value, iteration, names, source, closing⟩ .key s₀ := .key hopens
  obtain ⟨⟨key, c₁⟩, hkey⟩ := exists_eq_ok_of_forall_ne_error fun e he =>
    h _ _ _ e (h₀ (.slot unreadSlot) (.slot unreadSlot) .implicit [] unreadSlot [])
      (.key (Cursor.readOperand_before_eq_error_iff.mp he))
  obtain ⟨s₁, rfl, hat, hnullish⟩ := operandAt_of_readOperand hkey
  have h₁ value iteration names source closing :
      t.Reaches ⟨n, key, value, iteration, names, source, closing⟩ .colon s₁ :=
    .colon (h₀ key value iteration names source closing) hat
      (Operand.isNullish_eq_false_iff.mp (hnullish rfl))
  obtain ⟨c₂, hcolon⟩ := exists_eq_ok_of_forall_ne_error (x := (Cursor.before s₁).readColon)
    fun e he => by
      obtain ⟨hhead, rfl⟩ := Cursor.readColon_before_eq_error_iff.mp he
      exact h _ _ _ _ (h₁ (.slot unreadSlot) .implicit [] unreadSlot []) (.colon hhead)
  obtain ⟨w, s₂, hw, rfl, rfl⟩ := Cursor.readColon_before_eq_ok_iff.mp hcolon
  exact ⟨n, key, s₂, fun value iteration names source closing =>
    .value hw (h₁ value iteration names source closing)⟩

/-- A value and a clause that binds its names are read. -/
private theorem exists_reaches_source (h : t.Faultless) :
    ∃ n key value iteration names s, leadingText s = [] ∧ ∀ source closing,
      t.Reaches ⟨n, key, value, iteration, names, source, closing⟩ .source s := by
  obtain ⟨n, key, s₂, h₂⟩ := h.exists_reaches_value
  obtain ⟨⟨value, c₃⟩, hvalue⟩ := exists_eq_ok_of_forall_ne_error fun e he =>
    h _ _ _ e (h₂ (.slot unreadSlot) .implicit [] unreadSlot [])
      (.value (Cursor.readOperand_before_eq_error_iff.mp he))
  obtain ⟨s₃, rfl, hat, -⟩ := operandAt_of_readOperand hvalue
  have h₃ iteration names source closing :
      t.Reaches ⟨n, key, value, iteration, names, source, closing⟩ .clause s₃ :=
    .clause (h₂ value iteration names source closing) hat
  obtain ⟨iteration, names, hclause⟩ :
      ∃ iteration names, ClauseText iteration names (unread s₃) := by
    by_contra hnone
    refine h _ _ _ _ (h₃ .implicit [] unreadSlot []) (.clause fun iteration names hclause => ?_)
    exact hnone ⟨iteration, names, hclause⟩
  obtain ⟨s₄, hs₃, hs₄⟩ := exists_eq_symbols_leadingText_append s₃
  have h₄ source closing :
      t.Reaches ⟨n, key, value, iteration, names, source, closing⟩ .arity s₄ :=
    .arity hs₄ hclause (hs₃ ▸ h₃ iteration names source closing)
  refine ⟨n, key, value, iteration, names, s₄, hs₄, fun source closing => .source ?_ (h₄ _ _)⟩
  intro hkeys
  by_contra hlength
  exact h _ _ _ _ (h₄ unreadSlot []) (.arity hkeys (Nat.lt_of_not_le hlength))

/-- A source and the end are read. -/
private theorem exists_reaches_keyName (h : t.Faultless) : ∃ d, t.Reaches d .keyName [] := by
  obtain ⟨n, key, value, iteration, names, s₄, hs₄, h₄⟩ := h.exists_reaches_source
  obtain ⟨source, s₅, rfl, hentries⟩ := exists_source_of_forall_not_fault iteration hs₄
    fun e he => h _ _ _ e (h₄ unreadSlot []) (.source he)
  have h₅ closing : t.Reaches ⟨n, key, value, iteration, names, source, closing⟩ .ending s₅ :=
    .ending hentries (h₄ source closing)
  obtain ⟨⟨⟩, hend⟩ := exists_eq_ok_of_forall_ne_error fun e he =>
    h _ _ _ e (h₅ []) (.ending (Cursor.readEnd_before_eq_error_iff.mp he))
  obtain ⟨closing, rfl, hclosing⟩ := Cursor.readEnd_before_eq_ok_iff.mp hend
  exact ⟨_, .keyName (fun c hc => Cursor.isClosing_iff.mp (hclosing c hc)) (h₅ closing)⟩

/-- A template without a fault at a stage that is reached is read. -/
theorem exists_plan (h : t.Faultless) : ∃ p, Plan.ofTemplate t = .ok p := by
  obtain ⟨d, hreach⟩ := h.exists_reaches_keyName
  have hkey e := mt Derivation.Fault.keyName (h _ _ _ e hreach)
  have hvalue e := mt Derivation.Fault.valueName (h _ _ _ e (.valueName hkey hreach))
  obtain ⟨b, entries, hiteration, hnames, hresume⟩ := hreach.exists_eq_fromNames le_rfl
  rw [← hiteration, ← hnames] at hkey hvalue
  obtain ⟨kp, hkp⟩ := Provider.exists_bind_eq_ok hkey
  obtain ⟨vp, hvp⟩ := Provider.exists_bind_eq_ok hvalue
  refine ⟨⟨kp, vp, b, entries⟩, ?_⟩
  rw [hresume, Plan.fromNames, hkp]
  simp only [bind, Except.bind, hvp]
  rfl

end Template.Faultless

end Reached

end Comprehension
