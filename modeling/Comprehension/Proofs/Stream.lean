import Comprehension.Plan
import Comprehension.Proofs.Clause

/-!
# Templates as streams of symbols

A template is read as one stream, in which its slots stand between the characters of its segments.
The cursor *before* a stream holds the text up to the next slot, without the white space at its
ends, and the slots ahead.  Each step of reading leads from the cursor before a stream to the
cursor before what is left of the stream, and the lemmas say exactly which symbols lie between.

## Main definitions

* `Symbol`, `Template.stream`.
* `Cursor.before`: the cursor before a stream.
* `OperandText`: the written forms of keys and values.

## Main results

* `Cursor.readOperand_before_eq_ok_iff`, `Cursor.readColon_before_eq_ok_iff`,
  `Cursor.takeSlot?_before_eq_some_iff`, `Cursor.readEnd_before_eq_ok_iff`.
* `Cursor.start_eq_before`: the cursor at the start of a template.
-/

namespace Comprehension

open Text

/-- A symbol of a template: a character or a slot. -/
inductive Symbol
  | char (c : Char)
  | slot (s : Slot)

/-- The symbols of a text. -/
def symbols (cs : List Char) : List Symbol := cs.map .char

/-- A template as one stream of symbols. -/
def Template.stream (t : Template) : List Symbol :=
  symbols t.lead.toList ++ t.rest.flatMap fun p => .slot p.1 :: symbols p.2.toList

/-- The text before the next slot of a stream. -/
def leadingText : List Symbol → List Char
  | .char c :: s => c :: leadingText s
  | _ => []

/-- The slots of a stream, each with the text after it. -/
def slotsAhead : List Symbol → List (Slot × String)
  | [] => []
  | .char _ :: s => slotsAhead s
  | .slot x :: s => (x, String.ofList (leadingText s)) :: slotsAhead s

theorem symbols_append (cs ds : List Char) : symbols (cs ++ ds) = symbols cs ++ symbols ds :=
  List.map_append

@[simp] theorem leadingText_symbols_append (cs : List Char) (s : List Symbol) :
    leadingText (symbols cs ++ s) = cs ++ leadingText s := by
  induction cs with
  | nil => rfl
  | cons c cs ih => exact congrArg (c :: ·) ih

@[simp] theorem slotsAhead_symbols_append (cs : List Char) (s : List Symbol) :
    slotsAhead (symbols cs ++ s) = slotsAhead s := by
  induction cs with
  | nil => rfl
  | cons c cs ih => exact ih

@[simp] theorem leadingText_symbols (cs : List Char) : leadingText (symbols cs) = cs := by
  have h : leadingText (symbols cs ++ []) = cs ++ [] := leadingText_symbols_append cs []
  rwa [List.append_nil, List.append_nil] at h

@[simp] theorem slotsAhead_symbols (cs : List Char) : slotsAhead (symbols cs) = [] := by
  have h := slotsAhead_symbols_append cs []
  rwa [List.append_nil] at h

@[simp] theorem leadingText_slot (x : Slot) (s : List Symbol) : leadingText (.slot x :: s) = [] :=
  rfl

@[simp] theorem slotsAhead_slot (x : Slot) (s : List Symbol) :
    slotsAhead (.slot x :: s) = (x, String.ofList (leadingText s)) :: slotsAhead s := rfl

/-- A stream is its leading text and what follows that text. -/
theorem exists_eq_symbols_leadingText_append (s : List Symbol) :
    ∃ s', s = symbols (leadingText s) ++ s' ∧ leadingText s' = [] := by
  induction s with
  | nil => exact ⟨[], rfl, rfl⟩
  | cons y s ih =>
    cases y with
    | char c =>
      obtain ⟨s', hs, hs'⟩ := ih
      exact ⟨s', congrArg (.char c :: ·) hs, hs'⟩
    | slot x => exact ⟨.slot x :: s, rfl, rfl⟩

/-- A stream with a slot ahead is its leading text, the slot and what follows. -/
theorem exists_of_slotsAhead_eq_cons {s : List Symbol} {x : Slot} {segment : String}
    {ahead : List (Slot × String)} (h : slotsAhead s = (x, segment) :: ahead) :
    ∃ s', s = symbols (leadingText s) ++ .slot x :: s' ∧ segment = String.ofList (leadingText s') ∧
      ahead = slotsAhead s' := by
  induction s with
  | nil => exact absurd h (by simp [slotsAhead])
  | cons y s ih =>
    cases y with
    | char c =>
      obtain ⟨s', hs, hsegment, hahead⟩ := ih h
      exact ⟨s', congrArg (.char c :: ·) hs, hsegment, hahead⟩
    | slot z =>
      obtain ⟨hhead, htail⟩ := List.cons.inj h
      obtain ⟨rfl, hsegment⟩ := Prod.mk.inj hhead
      exact ⟨s, rfl, hsegment.symm, htail.symm⟩

/-- A stream without slots is a text. -/
theorem eq_symbols_of_slotsAhead_eq_nil {s : List Symbol} (h : slotsAhead s = []) :
    s = symbols (leadingText s) := by
  induction s with
  | nil => rfl
  | cons y s ih =>
    cases y with
    | char c => exact congrArg (.char c :: ·) (ih h)
    | slot x => exact absurd h (by simp)

theorem leadingText_append_slot (s s' : List Symbol) (x : Slot) :
    leadingText (s ++ .slot x :: s') = leadingText s := by
  induction s with
  | nil => rfl
  | cons y s ih =>
    cases y with
    | char c => exact congrArg (c :: ·) ih
    | slot z => rfl

theorem slotsAhead_append_slot (s s' : List Symbol) (x : Slot) :
    slotsAhead (s ++ .slot x :: s') =
      slotsAhead s ++ (x, String.ofList (leadingText s')) :: slotsAhead s' := by
  induction s with
  | nil => rfl
  | cons y s ih =>
    cases y with
    | char c => exact ih
    | slot z =>
      rw [List.cons_append, slotsAhead_slot, slotsAhead_slot, leadingText_append_slot, ih,
        List.cons_append]

/-- The last slot of a stream and the text after it. -/
theorem getLast?_slotsAhead (s : List Symbol) (x : Slot) (cs : List Char) :
    (slotsAhead (s ++ .slot x :: symbols cs)).getLast? = some (x, String.ofList cs) := by
  rw [slotsAhead_append_slot, leadingText_symbols, slotsAhead_symbols, List.getLast?_concat]

private theorem leadingText_flatMap_slots (rest : List (Slot × String)) :
    leadingText (rest.flatMap fun p => .slot p.1 :: symbols p.2.toList) = [] := by
  cases rest <;> rfl

@[simp] theorem leadingText_stream (t : Template) : leadingText t.stream = t.lead.toList := by
  rw [Template.stream, leadingText_symbols_append, leadingText_flatMap_slots, List.append_nil]

@[simp] theorem slotsAhead_stream (t : Template) : slotsAhead t.stream = t.rest := by
  rw [Template.stream, slotsAhead_symbols_append]
  induction t.rest with
  | nil => rfl
  | cons p rest ih =>
    rw [List.flatMap_cons, List.cons_append, slotsAhead_slot, slotsAhead_symbols_append, ih,
      leadingText_symbols_append, leadingText_flatMap_slots, List.append_nil, String.ofList_toList]

/-- The written forms of keys and values: references, and slots. -/
inductive OperandText : Operand → List Symbol → Prop
  | reference {r : Reference} :
      r.IsWellFormed → OperandText (.reference r) (symbols r.raw.toList)
  | slot (x : Slot) : OperandText (.slot x) [.slot x]

namespace Cursor

/-- The cursor before a stream. -/
def before (s : List Symbol) : Cursor := ⟨trim (leadingText s), slotsAhead s⟩

@[simp] theorem before_symbols_append {w : List Char} (hw : Blank w) (s : List Symbol) :
    before (symbols w ++ s) = before s := by
  rw [before, leadingText_symbols_append, trim_append_left hw, slotsAhead_symbols_append, before]

/-- A slot is taken with all the text before it. -/
theorem takeSlot?_before_eq_some_iff {s : List Symbol} {x : Slot} {c : Cursor} :
    (before s).takeSlot? = some (x, c) ↔
      ∃ cs s', s = symbols cs ++ .slot x :: s' ∧ c = before s' := by
  constructor
  · intro h
    rw [takeSlot?] at h
    split at h
    · exact absurd h (by simp)
    · rename_i y segment ahead hahead
      obtain ⟨rfl, rfl⟩ := Prod.mk.inj (Option.some.inj h)
      obtain ⟨s', hs, rfl, rfl⟩ := exists_of_slotsAhead_eq_cons hahead
      exact ⟨_, s', hs, by rw [String.toList_ofList, before]⟩
  · rintro ⟨cs, s', rfl, rfl⟩
    simp [takeSlot?, before]

theorem takeSlot?_before_slot (x : Slot) (s : List Symbol) :
    (before (.slot x :: s)).takeSlot? = some (x, before s) :=
  takeSlot?_before_eq_some_iff.mpr ⟨[], s, rfl, rfl⟩

/-- Reading a first part of the leading text of a stream leads to the cursor before what follows
that part. -/
private theorem exists_of_trim_eq_append {s : List Symbol} {cs rest : List Char}
    (h : trim (leadingText s) = cs ++ rest) :
    ∃ u v s', Blank u ∧ Blank v ∧ s = symbols u ++ (symbols cs ++ s') ∧
      leadingText s' = rest ++ v ∧ ⟨trimStart rest, slotsAhead s⟩ = before s' := by
  obtain ⟨u, v, hu, hv, htext⟩ := exists_append_trim_append (leadingText s)
  obtain ⟨s₀, hs, hs₀⟩ := exists_eq_symbols_leadingText_append s
  have hrest : trimStart rest = trim (rest ++ v) :=
    Trimmed.trimStart_of_append (h ▸ trimmed_trim (leadingText s)) hv
  refine ⟨u, v, symbols (rest ++ v) ++ s₀, hu, hv, ?_, ?_, ?_⟩
  · rw [htext, h] at hs
    rw [hs]
    simp only [symbols_append, List.append_assoc]
  · rw [leadingText_symbols_append, hs₀, List.append_nil]
  · rw [before, leadingText_symbols_append, hs₀, List.append_nil, hrest, hs,
      slotsAhead_symbols_append, slotsAhead_symbols_append]

/-- No character of a written reference is white space. -/
private theorem isBlank_of_mem_raw {r : Reference} (hr : r.IsWellFormed) {c : Char}
    (hc : c ∈ r.raw.toList) : isBlank c = false := by
  have hpart : ∀ part ∈ r.parts, ∀ d ∈ part.toList, isBlank d = false := by
    intro part hpart d hd
    by_contra hblank
    have hid := isIdentifierChar_of_isBlank (by simpa using hblank)
    rw [all_isIdentifierChar (hr part hpart) d hd] at hid
    exact absurd hid (by simp)
  rw [Reference.toList_raw] at hc
  rcases List.mem_append.mp hc with hc | hc
  · exact hpart _ List.mem_cons_self c hc
  · obtain ⟨name, hname, hc⟩ := List.mem_flatMap.mp hc
    obtain ⟨part, htail, rfl⟩ := List.mem_map.mp hname
    rcases List.mem_cons.mp hc with rfl | hc
    · rfl
    · exact hpart part (List.mem_cons_of_mem _ htail) c hc

theorem trimmed_raw {r : Reference} (hr : r.IsWellFormed) : Trimmed r.raw.toList :=
  ⟨fun _ hc => isBlank_of_mem_raw hr (List.mem_of_mem_head? hc),
    fun _ hc => isBlank_of_mem_raw hr (List.mem_of_getLast? hc)⟩

theorem exists_cons_of_raw {r : Reference} (hr : r.IsWellFormed) :
    ∃ c cs, r.raw.toList = c :: cs ∧ isIdentifierStart c = true := by
  obtain ⟨c, cs, hhead, hc, -⟩ := exists_cons_of_isIdentifier (hr r.head List.mem_cons_self)
  exact ⟨c, _, by rw [Reference.toList_raw, hhead, List.cons_append], hc⟩

/-- A slot where an operand stands is read as that slot. -/
private theorem readOperand_before_slot {half : Half} {x : Slot} (s : List Symbol)
    (h : ¬ (half = .key ∧ x.isNullish = true)) :
    (before (.slot x :: s)).readOperand half = .ok (.slot x, before s) := by
  have htext : (before (.slot x :: s)).text = [] := rfl
  rw [readOperand, if_pos htext, takeSlot?_before_slot]
  simp only
  rw [if_neg h]

/-- A reference where an operand stands is read up to a text that does not extend it. -/
private theorem readOperand_before_reference {half : Half} {r : Reference} {s : List Symbol}
    (hr : r.IsWellFormed) (h : EndsReference (leadingText s)) :
    (before (symbols r.raw.toList ++ s)).readOperand half = .ok (.reference r, before s) := by
  obtain ⟨d, cs, hraw, -⟩ := exists_cons_of_raw hr
  have h0 : r.raw.toList ≠ [] := by
    rw [hraw]
    exact List.cons_ne_nil _ _
  have htext : (before (symbols r.raw.toList ++ s)).text =
      r.raw.toList ++ trimEnd (leadingText s) := by
    rw [before, leadingText_symbols_append, (trimmed_raw hr).trim_append h0]
  have hread : readReference (before (symbols r.raw.toList ++ s)).text =
      some (r, trimEnd (leadingText s)) :=
    readReference_eq_some_iff.mpr ⟨hr, h.trimEnd, htext⟩
  have hne : (before (symbols r.raw.toList ++ s)).text ≠ [] := by
    rw [htext]
    exact List.append_ne_nil_of_left_ne_nil h0 _
  rw [readOperand, if_neg hne, hread]
  simp only
  rw [trimStart_trimEnd, before, slotsAhead_symbols_append, before]

/-- Reading an operand takes white space and the longest reference, or white space and a slot. -/
theorem readOperand_before_eq_ok_iff {half : Half} {s : List Symbol} {o : Operand} {c : Cursor} :
    (before s).readOperand half = .ok (o, c) ↔
      (∀ x, o = .slot x → ¬ (half = .key ∧ x.isNullish = true)) ∧
      ∃ w k s', Blank w ∧ OperandText o k ∧
        (∀ r, o = .reference r → EndsReference (leadingText s')) ∧
        s = symbols w ++ (k ++ s') ∧ c = before s' := by
  constructor
  · intro h
    rw [readOperand] at h
    split at h
    · rename_i hempty
      split at h
      · exact absurd h (by simp)
      · rename_i x c' hslot
        split at h
        · exact absurd h (by simp)
        · rename_i hnullish
          obtain ⟨rfl, rfl⟩ := Prod.mk.inj (Except.ok.inj h)
          obtain ⟨cs, s', rfl, rfl⟩ := takeSlot?_before_eq_some_iff.mp hslot
          have hw : Blank cs := by
            simpa [before, trim_eq_nil_iff] using hempty
          refine ⟨fun y hy => ?_, cs, _, s', hw, .slot x, fun r hr => ?_, rfl, rfl⟩
          · obtain rfl := Operand.slot.inj hy
            exact hnullish
          · exact absurd hr (by simp)
    · split at h
      · exact absurd h (by simp)
      · rename_i r rest hread
        obtain ⟨rfl, rfl⟩ := Prod.mk.inj (Except.ok.inj h)
        obtain ⟨hr, hrest, htext⟩ := readReference_eq_some_iff.mp hread
        obtain ⟨u, v, s', hu, hv, rfl, hs', hc⟩ := exists_of_trim_eq_append htext
        refine ⟨fun y hy => absurd hy (by simp), u, _, s', hu, .reference hr, fun _ _ => ?_, rfl,
          hc⟩
        rw [hs']
        exact hrest.append_of_blank hv
  · rintro ⟨hnullish, w, k, s', hw, hk, hends, rfl, rfl⟩
    rw [before_symbols_append hw]
    cases hk with
    | slot x => exact readOperand_before_slot s' (hnullish x rfl)
    | reference hr => exact readOperand_before_reference hr (hends _ rfl)

/-- Reading the colon takes white space and a colon. -/
theorem readColon_before_eq_ok_iff {s : List Symbol} {c : Cursor} :
    (before s).readColon = .ok c ↔
      ∃ w s', Blank w ∧ s = symbols w ++ .char ':' :: s' ∧ c = before s' := by
  constructor
  · intro h
    rw [readColon] at h
    split at h
    · rename_i rest htext
      obtain rfl := Except.ok.inj h
      have htrim : trim (leadingText s) = [':'] ++ rest := htext
      obtain ⟨u, v, s', hu, -, rfl, -, hc⟩ := exists_of_trim_eq_append htrim
      exact ⟨u, s', hu, rfl, hc⟩
    · exact absurd h (by simp)
  · rintro ⟨w, s', hw, rfl, rfl⟩
    have hcolon : Trimmed [':'] := by
      constructor
      · rintro c ⟨⟩
        rfl
      · rintro c ⟨⟩
        rfl
    have htext : (before (symbols [':'] ++ s')).text = ':' :: trimEnd (leadingText s') := by
      rw [before, leadingText_symbols_append, hcolon.trim_append (by simp)]
      rfl
    have hs : symbols w ++ .char ':' :: s' = symbols w ++ (symbols [':'] ++ s') := rfl
    rw [hs, before_symbols_append hw, readColon, htext]
    simp only
    rw [trimStart_trimEnd, before, slotsAhead_symbols_append, before]

theorem isClosing_iff {c : Char} : isClosing c = true ↔ c = '}' ∨ isBlank c = true := by
  rw [isClosing, Bool.or_eq_true, beq_iff_eq]

/-- Nothing is left when there are only closing characters and no slots. -/
theorem readEnd_eq_ok_iff {c : Cursor} :
    c.readEnd = .ok () ↔ (∀ ch ∈ c.text, isClosing ch = true) ∧ c.ahead = [] := by
  rw [← List.dropWhile_eq_nil_iff, readEnd]
  split
  · rename_i htext
    exact ⟨fun h => absurd h (by simp), fun h => absurd (htext.symm.trans h.1) (by simp)⟩
  · rename_i hahead
    exact ⟨fun h => absurd h (by simp), fun h => absurd (hahead.symm.trans h.2) (by simp)⟩
  · rename_i htext hahead
    exact ⟨fun _ => ⟨htext, hahead⟩, fun _ => rfl⟩

theorem forall_isClosing_trim_iff {cs : List Char} :
    (∀ c ∈ trim cs, isClosing c = true) ↔ ∀ c ∈ cs, isClosing c = true := by
  obtain ⟨u, v, hu, hv, hcs⟩ := exists_append_trim_append cs
  constructor
  · intro h c hc
    rw [hcs] at hc
    rcases List.mem_append.mp hc with hc | hc
    · rcases List.mem_append.mp hc with hc | hc
      · exact isClosing_iff.mpr (Or.inr (hu c hc))
      · exact h c hc
    · exact isClosing_iff.mpr (Or.inr (hv c hc))
  · intro h c hc
    refine h c ?_
    rw [hcs]
    exact List.mem_append_left _ (List.mem_append_right _ hc)

/-- Reading ends where only closing characters are left. -/
theorem readEnd_before_eq_ok_iff {s : List Symbol} :
    (before s).readEnd = .ok () ↔ ∃ cs, s = symbols cs ∧ ∀ c ∈ cs, isClosing c = true := by
  rw [readEnd_eq_ok_iff, before, forall_isClosing_trim_iff]
  constructor
  · rintro ⟨htext, hahead⟩
    exact ⟨leadingText s, eq_symbols_of_slotsAhead_eq_nil hahead, htext⟩
  · rintro ⟨cs, rfl, hcs⟩
    rw [leadingText_symbols]
    exact ⟨hcs, slotsAhead_symbols cs⟩

/-! ### The start of a template -/

/-- The number of braces that a template opens with. -/
def openingBraces (t : Template) : Nat := ((trim t.lead.toList).takeWhile (· == '{')).length

private theorem takeWhile_brace (cs : List Char) :
    cs.takeWhile (· == '{') = List.replicate (cs.takeWhile (· == '{')).length '{' :=
  List.eq_replicate_iff.mpr ⟨rfl, fun c hc => by simpa using List.mem_takeWhile_imp hc⟩

/-- The start of a template is the cursor behind the braces it opens with. -/
theorem exists_start_eq_before (t : Template) :
    ∃ w s, Blank w ∧ start t = before s ∧
      t.stream = symbols w ++ (symbols (List.replicate (openingBraces t) '{') ++ s) := by
  obtain ⟨s₀, hs, hs₀⟩ := exists_eq_symbols_leadingText_append t.stream
  obtain ⟨u, v, hu, hv, hlead⟩ := exists_append_trim_append t.lead.toList
  have hbraces : trim t.lead.toList =
      List.replicate (openingBraces t) '{' ++ stripRun '{' (trim t.lead.toList) := by
    rw [openingBraces, ← takeWhile_brace, stripRun, List.takeWhile_append_dropWhile]
  have hahead : slotsAhead s₀ = t.rest := by
    rw [← slotsAhead_stream t, hs, slotsAhead_symbols_append]
  refine ⟨u, symbols (stripRun '{' (trim t.lead.toList) ++ v) ++ s₀, hu, ?_, ?_⟩
  · rw [start, before, leadingText_symbols_append, hs₀, List.append_nil, trim_append_right hv,
      slotsAhead_symbols_append, hahead]
  · calc t.stream = symbols t.lead.toList ++ s₀ := by rw [← leadingText_stream t, ← hs]
      _ = symbols (u ++ (List.replicate (openingBraces t) '{' ++
            stripRun '{' (trim t.lead.toList)) ++ v) ++ s₀ := by rw [← hbraces, ← hlead]
      _ = _ := by simp only [symbols_append, List.append_assoc]

theorem trimmed_braces (n : Nat) : Trimmed (List.replicate n '{') := by
  refine ⟨fun c hc => ?_, fun c hc => ?_⟩
  · rw [List.eq_of_mem_replicate (List.mem_of_mem_head? hc)]
    rfl
  · rw [List.eq_of_mem_replicate (List.mem_of_getLast? hc)]
    rfl

/-- A run of braces is stripped from a text that goes on with another character. -/
theorem stripRun_braces_append (n : Nat) {cs : List Char} (hcs : ∀ c ∈ cs.head?, c ≠ '{') :
    stripRun '{' (List.replicate n '{' ++ cs) = cs := by
  refine dropWhile_append_of_head (fun c hc => ?_) fun c hc => by simpa using hcs c hc
  rw [List.eq_of_mem_replicate hc]
  rfl

/-- Braces in front of a text that starts with none stay in front of it when it is trimmed. -/
private theorem exists_trim_braces_append (n : Nat) {cs : List Char}
    (hcs : ∀ c ∈ (trim cs).head?, c ≠ '{') :
    ∃ ds, trim (List.replicate n '{' ++ cs) = List.replicate n '{' ++ ds ∧ trim ds = trim cs ∧
      ∀ c ∈ ds.head?, c ≠ '{' := by
  cases n with
  | zero => exact ⟨trim cs, rfl, trim_trim cs, hcs⟩
  | succ n =>
    refine ⟨trimEnd cs, (trimmed_braces _).trim_append (by simp) cs, trim_trimEnd cs,
      fun c hc => ?_⟩
    rintro rfl
    have hstart : trimStart (trimEnd cs) = trimEnd cs := by
      refine trimStart_eq_self fun d hd => ?_
      obtain rfl := Option.some.inj (hc.symm.trans hd)
      rfl
    rw [trimStart_trimEnd] at hstart
    exact hcs '{' (hstart ▸ hc) rfl

/-- A template that opens with braces starts at the cursor behind them. -/
theorem start_eq_before {t : Template} {w₁ w₂ : List Char} {n : Nat} {s : List Symbol}
    (hw₁ : Blank w₁) (hw₂ : Blank w₂) (hs : ∀ c ∈ (trim (leadingText s)).head?, c ≠ '{')
    (ht : t.stream = symbols w₁ ++ (symbols (List.replicate n '{') ++ (symbols w₂ ++ s))) :
    start t = before s ∧ openingBraces t = n := by
  have hlead : t.lead.toList = w₁ ++ (List.replicate n '{' ++ (w₂ ++ leadingText s)) := by
    rw [← leadingText_stream t, ht]
    simp only [leadingText_symbols_append]
  have hrest : t.rest = slotsAhead s := by
    rw [← slotsAhead_stream t, ht]
    simp only [slotsAhead_symbols_append]
  have hopen : ∀ c ∈ (trim (w₂ ++ leadingText s)).head?, c ≠ '{' := by
    rwa [trim_append_left hw₂]
  obtain ⟨ds, htrim, hds, hhead⟩ := exists_trim_braces_append n hopen
  constructor
  · rw [start, hlead, trim_append_left hw₁, htrim, stripRun_braces_append n hhead, hds,
      trim_append_left hw₂, hrest, before]
  · have hbrace : ∀ c ∈ List.replicate n '{', (c == '{') = true := fun c hc => by
      rw [List.eq_of_mem_replicate hc]
      rfl
    have hfree : ∀ c ∈ ds.head?, (c == '{') = false := fun c hc => by simpa using hhead c hc
    rw [openingBraces, hlead, trim_append_left hw₁, htrim, takeWhile_append_of_head hbrace hfree,
      List.length_replicate]

end Cursor

end Comprehension
