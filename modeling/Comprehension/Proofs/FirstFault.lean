import Comprehension.Proofs.Stage

/-!
# The first stage that fails

An error tells the stage that raised it, up to the half whose name is at fault.  Where a stage that
is reached has a fault, no later stage is therefore reached, by whatever derivation, so that the
error of reading names the first thing that is wrong.  An error that quotes unread text quotes all
that the earlier stages left of the segment they are in.

## Main definitions

* `ParseError.stages`: the stages that may raise an error.
* `ParseError.unread?`, `Cursor.segment`: the text that an error quotes, and trimmed segments.

## Main results

* `Template.Reaches.not_reaches_of_fault`: no stage after one with a fault is reached.
* `ofTemplate_fails_at_first_fault`: reading fails with the fault of the first stage that fails.
-/

namespace Comprehension

open Text

/-! ### The stages that may raise an error -/

/-- The stage that reads a half of an entry. -/
def Half.stage : Half → Stage
  | key => .key
  | value => .value

/-- The stages that may raise an error. -/
def ParseError.stages : ParseError → List Stage
  | missing half | invalidReference half _ => [half.stage]
  | missingColon _ => [.colon]
  | invalidIteration _ => [.clause]
  | severalKeyNames _ => [.arity]
  | invalidSource _ _ => [.source]
  | trailingText _ | extraSlot _ => [.ending]
  | unknownName _ _ | keyTraversal _ => [.keyName, .valueName]
  | segmentMismatch _ _ => []

/-- An error may be raised at a stage or after it. -/
def ParseError.IsFrom (e : ParseError) (stage : Stage) : Prop :=
  ∃ later ∈ e.stages, stage.rank ≤ later.rank

theorem ParseError.IsFrom.mono {e : ParseError} {earlier stage : Stage} (h : e.IsFrom stage)
    (hle : earlier.rank ≤ stage.rank) : e.IsFrom earlier := by
  obtain ⟨later, hlater, hrank⟩ := h
  exact ⟨later, hlater, Nat.le_trans hle hrank⟩

section Stages

variable {e : ParseError}

theorem OperandFault.stages_eq {half : Half} {s : List Symbol} (h : OperandFault half s e) :
    e.stages = [half.stage] := by
  cases h <;> rfl

theorem SourceFault.stages_eq {iteration : Iteration} {s : List Symbol}
    (h : SourceFault iteration s e) : e.stages = [.source] := by
  cases h <;> rfl

theorem EndFault.stages_eq {s : List Symbol} (h : EndFault s e) : e.stages = [.ending] := by
  cases h <;> rfl

theorem NameFault.stages_eq {iteration : Iteration} {names : List String} {o : Operand}
    (h : NameFault iteration names o e) : e.stages = [.keyName, .valueName] := by
  cases h <;> rfl

/-- The error of a fault tells its stage, up to the half that has the name. -/
theorem Derivation.Fault.stages_eq {d : Derivation} {stage : Stage} {s : List Symbol}
    (h : d.Fault stage s e) :
    e.stages = [stage] ∨
      (stage = .keyName ∨ stage = .valueName) ∧ e.stages = [.keyName, .valueName] := by
  cases h with
  | key h => exact Or.inl h.stages_eq
  | colon => exact Or.inl rfl
  | value h => exact Or.inl h.stages_eq
  | clause => exact Or.inl rfl
  | arity => exact Or.inl rfl
  | source h => exact Or.inl h.stages_eq
  | ending h => exact Or.inl h.stages_eq
  | keyName h => exact Or.inr ⟨Or.inl rfl, h.stages_eq⟩
  | valueName h => exact Or.inr ⟨Or.inr rfl, h.stages_eq⟩

/-! ### Each step fails at its stage, and what follows it later -/

theorem ParseError.isFrom_of_stages_eq {stage : Stage} (h : e.stages = [stage]) :
    e.IsFrom stage := ⟨stage, by simp [h], le_rfl⟩

theorem Cursor.isFrom_of_readOperand {half : Half} {c : Cursor}
    (h : c.readOperand half = .error e) : e.IsFrom half.stage := by
  refine ParseError.isFrom_of_stages_eq ?_
  rw [readOperand] at h
  split at h
  · split at h
    · obtain rfl := Except.error.inj h
      rfl
    · split at h
      · obtain rfl := Except.error.inj h
        rfl
      · exact absurd h (by simp)
  · split at h
    · obtain rfl := Except.error.inj h
      rfl
    · exact absurd h (by simp)

theorem Cursor.isFrom_of_readColon {c : Cursor} (h : c.readColon = .error e) :
    e.IsFrom .colon := by
  refine ParseError.isFrom_of_stages_eq ?_
  rw [readColon] at h
  split at h
  · exact absurd h (by simp)
  · obtain rfl := Except.error.inj h
    rfl

theorem isFrom_of_ofNames {iteration : Iteration} {names : List String}
    (h : Bindings.ofNames iteration names = .error e) : e.IsFrom .arity := by
  refine ParseError.isFrom_of_stages_eq ?_
  rw [Bindings.ofNames] at h
  split at h
  · exact absurd h (by simp)
  · obtain rfl := Except.error.inj h
    rfl

theorem Cursor.isFrom_of_readBindings {c : Cursor} (h : c.readBindings = .error e) :
    e.IsFrom .clause := by
  rcases except_bind_eq_error_iff.mp h with h | ⟨b, -, h⟩
  · rw [readClause] at h
    split at h
    · exact absurd h (by simp)
    · split at h
      · exact (isFrom_of_ofNames h).mono (by decide)
      · obtain rfl := Except.error.inj h
        exact ParseError.isFrom_of_stages_eq rfl
  · exact absurd h (by simp [pure, Except.pure])

theorem isFrom_of_ofSlot {iteration : Iteration} {x : Slot}
    (h : Entries.ofSlot iteration x = .error e) : e.IsFrom .source := by
  obtain ⟨-, rfl⟩ := Entries.ofSlot_eq_error_iff.mp h
  exact ParseError.isFrom_of_stages_eq rfl

theorem Cursor.isFrom_of_readEntries {iteration : Iteration} {c : Cursor}
    (h : c.readEntries iteration = .error e) : e.IsFrom .source := by
  rw [readEntries] at h
  split at h
  · obtain rfl := Except.error.inj h
    exact ParseError.isFrom_of_stages_eq rfl
  · rcases except_bind_eq_error_iff.mp h with h | ⟨entries, -, h⟩
    · exact isFrom_of_ofSlot h
    · exact absurd h (by simp [pure, Except.pure])

theorem Cursor.isFrom_of_readEnd {c : Cursor} (h : c.readEnd = .error e) : e.IsFrom .ending := by
  refine ParseError.isFrom_of_stages_eq ?_
  rw [readEnd] at h
  split at h
  · obtain rfl := Except.error.inj h
    rfl
  · obtain rfl := Except.error.inj h
    rfl
  · exact absurd h (by simp)

theorem Provider.isFrom_of_bind {b : Bindings} {o : Operand} (h : Provider.bind b o = .error e) :
    e.IsFrom .valueName :=
  ⟨.valueName, by simp [(bind_eq_error_iff.mp h).stages_eq], le_rfl⟩

namespace Plan

variable {key value : Operand} {b : Bindings} {entries : Entries} {c : Cursor}

theorem isFrom_of_fromNames (h : fromNames key value b entries = .error e) :
    e.IsFrom .valueName := by
  rcases except_bind_eq_error_iff.mp h with h | ⟨kp, -, h⟩
  · exact Provider.isFrom_of_bind h
  · rcases except_bind_eq_error_iff.mp h with h | ⟨vp, -, h⟩
    · exact Provider.isFrom_of_bind h
    · exact absurd h (by simp [pure, Except.pure])

theorem isFrom_of_fromEnding (h : fromEnding key value b entries c = .error e) :
    e.IsFrom .ending := by
  rcases except_bind_eq_error_iff.mp h with h | ⟨_, -, h⟩
  · exact Cursor.isFrom_of_readEnd h
  · exact (isFrom_of_fromNames h).mono (by decide)

theorem isFrom_of_fromSource (h : fromSource key value b c = .error e) : e.IsFrom .source := by
  rcases except_bind_eq_error_iff.mp h with h | ⟨p, -, h⟩
  · exact Cursor.isFrom_of_readEntries h
  · exact (isFrom_of_fromEnding h).mono (by decide)

theorem isFrom_of_fromClause (h : fromClause key value c = .error e) : e.IsFrom .clause := by
  rcases except_bind_eq_error_iff.mp h with h | ⟨p, -, h⟩
  · exact Cursor.isFrom_of_readBindings h
  · exact (isFrom_of_fromSource h).mono (by decide)

theorem isFrom_of_fromValue (h : fromValue key c = .error e) : e.IsFrom .value := by
  rcases except_bind_eq_error_iff.mp h with h | ⟨p, -, h⟩
  · exact Cursor.isFrom_of_readOperand h
  · exact (isFrom_of_fromClause h).mono (by decide)

theorem isFrom_of_fromColon (h : fromColon key c = .error e) : e.IsFrom .colon := by
  rcases except_bind_eq_error_iff.mp h with h | ⟨p, -, h⟩
  · exact Cursor.isFrom_of_readColon h
  · exact (isFrom_of_fromValue h).mono (by decide)

end Plan

/-- Reading fails at a stage that is reached or after it. -/
theorem Template.Reaches.isFrom {t : Template} {d : Derivation} {stage : Stage} {s : List Symbol}
    (h : t.Reaches d stage s) (he : Plan.ofTemplate t = .error e) : e.IsFrom stage := by
  cases stage with
  | key =>
    rcases except_bind_eq_error_iff.mp he with he | ⟨p, -, he⟩
    · exact Cursor.isFrom_of_readOperand he
    · exact (Plan.isFrom_of_fromColon he).mono (by decide)
  | colon =>
    rw [h.ofTemplate_eq_resume] at he
    exact Plan.isFrom_of_fromColon he
  | value =>
    rw [h.ofTemplate_eq_resume] at he
    exact Plan.isFrom_of_fromValue he
  | clause =>
    rw [h.ofTemplate_eq_resume] at he
    exact Plan.isFrom_of_fromClause he
  | arity =>
    rw [h.ofTemplate_eq_resume] at he
    rcases except_bind_eq_error_iff.mp he with he | ⟨b, -, he⟩
    · exact isFrom_of_ofNames he
    · exact (Plan.isFrom_of_fromSource he).mono (by decide)
  | source =>
    obtain ⟨b, hb, -⟩ := h.exists_ofNames le_rfl
    rw [h.ofTemplate_eq_resume, Derivation.resume, hb] at he
    exact Plan.isFrom_of_fromSource he
  | ending =>
    obtain ⟨b, entries, hb, hentries, -⟩ := h.exists_ofSlot le_rfl
    rw [h.ofTemplate_eq_resume, Derivation.resume, hb] at he
    simp only [bind, Except.bind, hentries] at he
    exact Plan.isFrom_of_fromEnding he
  | keyName =>
    obtain ⟨b, entries, -, -, hresume⟩ := h.exists_eq_fromNames le_rfl
    exact (Plan.isFrom_of_fromNames (hresume ▸ he)).mono (by decide)
  | valueName =>
    obtain ⟨b, entries, -, -, hresume⟩ := h.exists_eq_fromNames (by decide)
    exact Plan.isFrom_of_fromNames (hresume ▸ he)

end Stages

/-! ### The first stage that fails -/

/-- The steps of reading give the parts of a derivation that reaches the names. -/
theorem Template.Reaches.readsAs {t : Template} {d : Derivation} {s : List Symbol}
    (h : t.Reaches d .keyName s) : t.ReadsAs d := by
  cases h with
  | keyName hclosing h =>
  cases h with
  | ending _ h =>
  cases h with
  | source _ h =>
  cases h with
  | @arity cs _ _ hclause h =>
  cases h with
  | clause h hvalue =>
  cases h with
  | @value w s hw h =>
  cases h with
  | colon h hkey _ =>
  cases h with
  | key hopens =>
  have hread : (Cursor.start t).readOperand .value = _ :=
    hopens.start_eq ▸ hkey.readOperand fun h => absurd h (by decide)
  refine ⟨_, _, _, _, hread, Cursor.readColon_before_eq_ok_iff.mpr ⟨w, _, hw, rfl, rfl⟩,
    hvalue.readOperand fun h => absurd h (by decide), ?_,
    Cursor.takeSlot?_before_eq_some_iff.mpr ⟨cs, _, rfl, rfl⟩,
    Cursor.readEnd_before_eq_ok_iff.mpr
      ⟨d.closing, rfl, fun c hc => Cursor.isClosing_iff.mpr (hclosing c hc)⟩⟩
  rw [Cursor.before, leadingText_symbols_append, leadingText_slot, List.append_nil, trim_trim]
  exact hclause

theorem Stage.rank_le (stage : Stage) : stage.rank ≤ Stage.valueName.rank := by
  cases stage <;> decide

/-- No stage after one with a fault is reached, by any derivation. -/
theorem Template.Reaches.not_reaches_of_fault {t : Template} {d d' : Derivation}
    {stage later : Stage} {s s' : List Symbol} {e : ParseError} (h : t.Reaches d stage s)
    (hf : d.Fault stage s e) (hlater : stage.rank < later.rank) : ¬ t.Reaches d' later s' := by
  intro h'
  obtain ⟨last, hlast, hle⟩ := h'.isFrom (h.ofTemplate_eq_error hf)
  have hlt : stage.rank < last.rank := Nat.lt_of_lt_of_le hlater hle
  have hrank : last.rank ≤ Stage.valueName.rank := last.rank_le
  rcases hf.stages_eq with hstages | ⟨rfl | rfl, hstages⟩
  · rw [hstages, List.mem_singleton] at hlast
    rw [hlast] at hlt
    exact absurd hlt (Nat.lt_irrefl _)
  · -- The key alone is at fault, and it has the same names for both derivations.
    obtain rfl : later = .valueName :=
      Stage.rank_injective (Nat.le_antisymm (hle.trans hrank) hlater)
    cases hf with
    | keyName hkey =>
    cases h' with
    | valueName hkey' h' =>
    obtain ⟨hk, -, hiteration, hnames, -⟩ := h.readsAs.parts_unique h'.readsAs
    rw [hk, hiteration, hnames] at hkey
    exact hkey' e hkey
  · exact absurd hlt (Nat.not_lt_of_le hrank)

/-- A derivation that reaches the names derives the template, up to the number of braces and the
text behind the source, and its key, its names and its source pass their checks. -/
theorem Template.Reaches.exists_derives {t : Template} {d : Derivation} {stage : Stage}
    {s : List Symbol} (h : t.Reaches d stage s) (hstage : Stage.keyName.rank ≤ stage.rank) :
    ∃ d' : Derivation, d'.Derives t.stream ∧
      (∀ v, d'.key = .slot (.value v) → v ≠ .null ∧ v ≠ .undefined) ∧
      (d'.iteration = .keys → d'.names.length = 1) ∧
      ((∃ vs, d'.source = .value (.array vs)) ∨
        d'.iteration = .keys ∧ ∃ ms, d'.source = .value (.object ms)) := by
  obtain ⟨s₁, hkeyName⟩ := h.earlier hstage
  obtain ⟨opening, closing, hderives⟩ := exists_derives_of_readsAs hkeyName.readsAs
  obtain ⟨s₂, hcolon⟩ : ∃ s', t.Reaches d .colon s' := h.earlier (Nat.le_trans (by decide) hstage)
  obtain ⟨s₃, hsource⟩ : ∃ s', t.Reaches d .source s' := h.earlier (Nat.le_trans (by decide) hstage)
  refine ⟨{ d with opening, closing }, hderives, ?_, fun hkeys => ?_,
    exists_entriesOf_iff.mp (h.exists_entriesOf (Nat.le_trans (by decide) hstage))⟩
  · cases hcolon with
    | colon _ _ hnullish => exact hnullish
  · cases hsource with
    | source harity hreach =>
    cases hreach with
    | arity _ hclause _ =>
    exact Nat.le_antisymm (harity hkeys) (List.length_pos_iff.mpr hclause.names_ne_nil)

/-! ### The text that an error quotes -/

/-- The text that an error quotes as unread. -/
def ParseError.unread? : ParseError → Option String
  | invalidReference _ found | missingColon found | invalidIteration found => some found
  | _ => none

/-- The trimmed segments from a cursor on: its own text, and the texts after the slots ahead. -/
def Cursor.segment (c : Cursor) : Nat → List Char
  | 0 => c.text
  | i + 1 => (c.ahead[i]?).elim [] fun p => trim p.2.toList

theorem OperandAt.suffix {o : Operand} {s s' : List Symbol} (h : OperandAt o s s') : s' <:+ s := by
  obtain ⟨-, -, -⟩ := h
  exact (List.suffix_append _ _).trans (List.suffix_append _ _)

/-- The stages that are passed leave a last part of the stream. -/
theorem Template.Reaches.exists_suffix {t : Template} {d : Derivation} {stage : Stage}
    {s : List Symbol} (h : t.Reaches d stage s) : ∃ s₀, t.Opens d.opening s₀ ∧ s <:+ s₀ := by
  induction h with
  | @key s hopens => exact ⟨s, hopens, List.suffix_rfl⟩
  | colon _ hkey _ ih =>
    obtain ⟨s₀, hopens, hs⟩ := ih
    exact ⟨s₀, hopens, hkey.suffix.trans hs⟩
  | value _ _ ih =>
    obtain ⟨s₀, hopens, hs⟩ := ih
    exact ⟨s₀, hopens, (List.suffix_cons _ _).trans ((List.suffix_append _ _).trans hs)⟩
  | clause _ hvalue ih =>
    obtain ⟨s₀, hopens, hs⟩ := ih
    exact ⟨s₀, hopens, hvalue.suffix.trans hs⟩
  | arity _ _ _ ih =>
    obtain ⟨s₀, hopens, hs⟩ := ih
    exact ⟨s₀, hopens, (List.suffix_append _ _).trans hs⟩
  | source _ _ ih => exact ih
  | ending _ _ ih =>
    obtain ⟨s₀, hopens, hs⟩ := ih
    exact ⟨s₀, hopens, (List.suffix_cons _ _).trans hs⟩
  | keyName _ _ ih =>
    obtain ⟨s₀, hopens, -⟩ := ih
    exact ⟨s₀, hopens, List.nil_suffix⟩
  | valueName _ _ ih => exact ih

theorem Cursor.segment_before_slot (x : Slot) (s : List Symbol) (i : Nat) :
    (before (.slot x :: s)).segment (i + 1) = (before s).segment i := by
  cases i with
  | zero =>
    change trim (String.ofList (leadingText s)).toList = trim (leadingText s)
    rw [String.toList_ofList]
  | succ i => rfl

/-- The unread text of a stream is a suffix of the segment in which the stream starts. -/
theorem unread_suffix (consumed s : List Symbol) :
    unread s <:+ (Cursor.before (consumed ++ s)).segment (slotsAhead consumed).length := by
  induction consumed with
  | nil => exact List.suffix_rfl
  | cons y consumed ih =>
    cases y with
    | char c =>
      have hslots : slotsAhead (.char c :: consumed) = slotsAhead consumed := rfl
      rw [hslots]
      cases hlength : (slotsAhead consumed).length with
      | zero =>
        rw [hlength] at ih
        exact ih.trans (trim_suffix (List.suffix_cons c _))
      | succ i => rwa [hlength] at ih
    | slot x =>
      rw [slotsAhead_slot, List.length_cons, List.cons_append, Cursor.segment_before_slot]
      exact ih

/-- The text that an error quotes as unread is what the stages before the fault left. -/
theorem Derivation.Fault.unread_eq {d : Derivation} {stage : Stage} {s : List Symbol}
    {e : ParseError} {text : String} (h : d.Fault stage s e) (htext : e.unread? = some text) :
    text.toList = unread s := by
  have hoperand {half : Half} (h : OperandFault half s e) : text.toList = unread s := by
    cases h with
    | absent => exact absurd htext (by simp [ParseError.unread?])
    | nullish => exact absurd htext (by simp [ParseError.unread?])
    | unreadable => rw [← Option.some.inj htext, String.toList_ofList]
  have hname {o : Operand} (h : NameFault d.iteration d.names o e) : text.toList = unread s := by
    cases h <;> exact absurd htext (by simp [ParseError.unread?])
  cases h with
  | key h => exact hoperand h
  | value h => exact hoperand h
  | colon => rw [← Option.some.inj htext, String.toList_ofList]
  | clause => rw [← Option.some.inj htext, String.toList_ofList]
  | arity => exact absurd htext (by simp [ParseError.unread?])
  | source h => cases h <;> exact absurd htext (by simp [ParseError.unread?])
  | ending h => cases h <;> exact absurd htext (by simp [ParseError.unread?])
  | keyName h => exact hname h
  | valueName h => exact hname h

/-- What a stage is left with starts in the segment behind the slots that are taken. -/
theorem Template.Reaches.unread_suffix_segment {t : Template} {d : Derivation} {stage : Stage}
    {s : List Symbol} (h : t.Reaches d stage s) :
    ∃ consumed, t.stream = consumed ++ s ∧
      unread s <:+ (Cursor.start t).segment (slotsAhead consumed).length := by
  obtain ⟨s₀, hopens, ⟨consumed, rfl⟩⟩ := h.exists_suffix
  obtain ⟨w, -, hstream⟩ := hopens.stream
  refine ⟨symbols w ++ (symbols (List.replicate d.opening '{') ++ consumed), ?_, ?_⟩
  · rw [hstream]
    simp only [List.append_assoc]
  · rw [hopens.start_eq, slotsAhead_symbols_append, slotsAhead_symbols_append]
    exact unread_suffix consumed s

/-- Reading fails exactly with the fault of a stage that is reached.  Its derivation passes all
earlier stages, no derivation reaches a later one, and an error that quotes unread text quotes what
the earlier stages left of the segment they are in.  The names are at fault only in templates whose
text, arity, source and end are those of a comprehension. -/
theorem ofTemplate_fails_at_first_fault (t : Template) :
    (∀ e, Plan.ofTemplate t = .error e ↔
      ∃ stage d s, t.Reaches d stage s ∧ d.Fault stage s e) ∧
    (∀ stage d s e, t.Reaches d stage s → d.Fault stage s e →
      (∀ earlier : Stage, earlier.rank ≤ stage.rank → ∃ s', t.Reaches d earlier s') ∧
      (∀ later : Stage, stage.rank < later.rank → ∀ d' s', ¬ t.Reaches d' later s') ∧
      ∀ text, e.unread? = some text → text.toList = unread s ∧
        ∃ consumed, t.stream = consumed ++ s ∧
          unread s <:+ (Cursor.start t).segment (slotsAhead consumed).length) ∧
    ∀ e, Plan.ofTemplate t = .error e →
      (∃ name bound, e = .unknownName name bound) ∨ (∃ r, e = .keyTraversal r) →
      ∃ d : Derivation, d.Derives t.stream ∧
        (∀ v, d.key = .slot (.value v) → v ≠ .null ∧ v ≠ .undefined) ∧
        (d.iteration = .keys → d.names.length = 1) ∧
        ((∃ vs, d.source = .value (.array vs)) ∨
          d.iteration = .keys ∧ ∃ ms, d.source = .value (.object ms)) := by
  have hfault (e) : Plan.ofTemplate t = .error e ↔
      ∃ stage d s, t.Reaches d stage s ∧ d.Fault stage s e := by
    constructor
    · intro he
      by_contra hnone
      have hfaultless : t.Faultless := fun stage d s e' h hf => by
        obtain rfl := Except.error.inj (he.symm.trans (h.ofTemplate_eq_error hf))
        exact hnone ⟨stage, d, s, h, hf⟩
      obtain ⟨p, hp⟩ := hfaultless.exists_plan
      rw [he] at hp
      exact absurd hp (by simp)
    · rintro ⟨stage, d, s, h, hf⟩
      exact h.ofTemplate_eq_error hf
  refine ⟨hfault, fun stage d s e h hf => ⟨fun earlier hle => h.earlier hle,
    fun later hlt d' s' => h.not_reaches_of_fault hf hlt,
    fun text htext => ⟨hf.unread_eq htext, h.unread_suffix_segment⟩⟩, fun e he hname => ?_⟩
  obtain ⟨stage, d, s, h, hf⟩ := (hfault e).mp he
  have hnames : e.stages = [.keyName, .valueName] := by
    rcases hname with ⟨name, bound, rfl⟩ | ⟨r, rfl⟩ <;> rfl
  refine h.exists_derives ?_
  rcases hf.stages_eq with hstages | ⟨rfl | rfl, -⟩
  · rw [hnames] at hstages
    exact absurd hstages (by simp)
  · exact le_rfl
  · decide

/-- The colon is missed in front of all the text that the key leaves, and an unbound name is found
in a template that is otherwise a comprehension. -/
theorem ofTemplate_fails_at_colon_and_at_name :
    let t : Template := ⟨"\x7b k v over ", []⟩
    let u : Derivation := ⟨1, .reference ⟨"k", []⟩, .reference ⟨"v", []⟩, .keys, ["k"],
      .value (.object []), ['}']⟩
    (Plan.ofTemplate t = .error (.missingColon "v over") ∧
      ∀ later : Stage, Stage.colon.rank < later.rank → ∀ d s, ¬ t.Reaches d later s) ∧
    Plan.ofTemplate u.template = .error (.unknownName "v" ["k"]) ∧
      ∃ d : Derivation, d.Derives u.template.stream ∧
        (d.iteration = .keys → d.names.length = 1) := by
  intro t u
  have hcolon : Plan.ofTemplate t = .error (.missingColon "v over") ∧
      ∀ later : Stage, Stage.colon.rank < later.rank → ∀ d s, ¬ t.Reaches d later s := by
    let x : Slot := .value .undefined
    let d : Derivation := ⟨1, .reference ⟨"k", []⟩, .slot x, .implicit, [], x, []⟩
    have hopens : t.Opens d.opening (symbols " k v over ".toList) :=
      ⟨⟨[], blank_nil, by simp [Template.stream, symbols, t, d]⟩, by simp,
        fun h => absurd h (by decide)⟩
    have hkey : OperandAt d.key (symbols " k v over ".toList) (symbols " v over ".toList) := by
      have hends : EndsReference (leadingText (symbols " v over ".toList)) := by
        rw [leadingText_symbols]
        exact endsReference_of_isBlank rfl _
      have hwritten : OperandText d.key (symbols "k".toList) :=
        .reference (r := ⟨"k", []⟩) (by decide)
      exact .intro (w := [' ']) (by decide) hwritten fun _ _ => hends
    have hreach : t.Reaches d .colon (symbols " v over ".toList) :=
      .colon (.key hopens) hkey (by simp [d])
    have hfault : d.Fault .colon (symbols " v over ".toList) (.missingColon "v over") :=
      .colon (by decide)
    exact ⟨((ofTemplate_fails_at_first_fault t).1 _).mpr ⟨_, d, _, hreach, hfault⟩,
      ((ofTemplate_fails_at_first_fault t).2.1 _ d _ _ hreach hfault).2.1⟩
  have hwritten : u.IsWellFormed :=
    ⟨by rintro r ⟨⟩; decide, by rintro r ⟨⟩; decide, by decide, by decide, by decide, by simp [u]⟩
  have hname : Plan.ofTemplate u.template = .error (.unknownName "v" ["k"]) := by
    rw [ofTemplate_eq_plan hwritten.derives]
    rfl
  obtain ⟨d, hderives, -, hnames, -⟩ :=
    (ofTemplate_fails_at_first_fault u.template).2.2 _ hname (.inl ⟨"v", ["k"], rfl⟩)
  exact ⟨hcolon, hname, d, hderives, hnames⟩

end Comprehension
