import Comprehension.Proofs.Agreement
import Comprehension.Proofs.Evaluation
import Comprehension.Proofs.Grammar

/-!
# Slots are not read as text

A template is read alike whatever its slots contain: only the kinds of the slots, the number of items
of arrays and the names of objects are looked at.  Two templates with the same segments and alike
slots are read side by side, and each step of reading keeps the cursors alike, so that both end with
the same error or with alike plans.

A slot that stands for the value is never followed either: it is itself the value of every entry.

## Main definitions

* `Template.Alike`: templates that differ only in what their slots contain.
* `Plan.Alike`: plans that differ only in functions, constants and entries.

## Main results

* `ofTemplate_agree`: alike templates are read alike.
* `ofTemplate_agree_and_constant_value`: slots decide neither whether nor how a template is read.
-/

namespace Comprehension

open Text

/-! ### What reading looks at -/

/-- Values of the same kind and, for arrays, as many items and, for objects, the same names in the
same order. -/
structure Value.Alike (v w : Value) : Prop where
  kind : v.kind = w.kind
  items : ∀ vs ws, v = .array vs → w = .array ws → vs.length = ws.length
  names : ∀ ms ns, v = .object ms → w = .object ns → ms.map Prod.fst = ns.map Prod.fst

/-- Two functions, or two values that are alike. -/
inductive Slot.Alike : Slot → Slot → Prop
  | function (f g : Value → Except String Value) : Alike (.function f) (.function g)
  | value {v w : Value} : v.Alike w → Alike (.value v) (.value w)

/-- Templates with the same segments and alike slots. -/
structure Template.Alike (t u : Template) : Prop where
  segments : t.segments = u.segments
  slots : List.Forall₂ Slot.Alike t.slots u.slots

/-- The same reference, or alike slots. -/
inductive Operand.Alike : Operand → Operand → Prop
  | reference (r : Reference) : Alike (.reference r) (.reference r)
  | slot {x y : Slot} : x.Alike y → Alike (.slot x) (.slot y)

/-- Providers of the same kind, with the same reference, position and splitting of entries. -/
inductive Provider.Alike : Provider → Provider → Prop
  | function (f g : Value → Except String Value) : Alike (.function f) (.function g)
  | constant (v w : Value) : Alike (.constant v) (.constant w)
  | field (r : Reference) (i : Nat) (destructures : Bool) :
      Alike (.field r i destructures) (.field r i destructures)

/-- Plans with the same names, as many entries, and alike providers. -/
structure Plan.Alike (p q : Plan) : Prop where
  key : p.key.Alike q.key
  value : p.value.Alike q.value
  bindings : p.bindings = q.bindings
  entries : p.entries.toList.length = q.entries.toList.length

/-- Cursors before the same texts and alike slots. -/
structure Cursor.Alike (c d : Cursor) : Prop where
  text : c.text = d.text
  ahead : List.Forall₂ (fun p q => p.1.Alike q.1 ∧ p.2 = q.2) c.ahead d.ahead

theorem Value.Alike.symm {v w : Value} (h : v.Alike w) : w.Alike v :=
  ⟨h.kind.symm, fun vs ws hv hw => (h.items ws vs hw hv).symm,
    fun ms ns hm hn => (h.names ns ms hn hm).symm⟩

theorem Value.Alike.isNullish_eq {v w : Value} (h : v.Alike w) : v.isNullish = w.isNullish := by
  rw [isNullish, isNullish, h.kind]

namespace Slot.Alike

variable {x y : Slot}

theorem symm (h : x.Alike y) : y.Alike x := by
  cases h with
  | function f g => exact .function g f
  | value h => exact .value h.symm

theorem isNullish_eq (h : x.Alike y) : x.isNullish = y.isNullish := by
  cases h with
  | function f g => rfl
  | value h => exact h.isNullish_eq

theorem kind_eq (h : x.Alike y) : x.kind = y.kind := by
  cases h with
  | function f g => rfl
  | value h => exact congrArg SlotKind.value h.kind

end Slot.Alike

/-! ### Each step of reading -/

theorem Value.exists_array_of_kind {v : Value} (h : v.kind = .array) : ∃ vs, v = .array vs := by
  cases v <;> simp [kind] at h ⊢

theorem Value.exists_object_of_kind {v : Value} (h : v.kind = .object) : ∃ ms, v = .object ms := by
  cases v <;> simp [kind] at h ⊢

namespace Slot.Alike

variable {x y : Slot} {iteration : Iteration}

/-- Alike sources have as many entries. -/
theorem exists_entriesOf (h : x.Alike y) {es : Entries} (hes : EntriesOf iteration x es) :
    ∃ fs, EntriesOf iteration y fs ∧ es.toList.length = fs.toList.length := by
  cases hes with
  | items hi =>
    cases h with
    | value h =>
      obtain ⟨ws, rfl⟩ := Value.exists_array_of_kind h.kind.symm
      exact ⟨_, .items hi, h.items _ _ rfl rfl⟩
  | names =>
    cases h with
    | value h =>
      obtain ⟨ns, rfl⟩ := Value.exists_object_of_kind h.kind.symm
      exact ⟨_, .names, by rw [h.names _ _ rfl rfl]⟩
  | positions =>
    cases h with
    | value h =>
      obtain ⟨ws, rfl⟩ := Value.exists_array_of_kind h.kind.symm
      exact ⟨_, .positions, by rw [h.items _ _ rfl rfl]⟩

theorem ofSlot (h : x.Alike y) :
    Agree Eq (fun es fs => es.toList.length = fs.toList.length) (Entries.ofSlot iteration x)
      (Entries.ofSlot iteration y) := by
  cases hx : Entries.ofSlot iteration x with
  | ok es =>
    obtain ⟨fs, hfs, hlength⟩ := h.exists_entriesOf (Entries.ofSlot_eq_ok_iff.mp hx)
    rw [Entries.ofSlot_eq_ok_iff.mpr hfs]
    exact .ok hlength
  | error e =>
    have hno : ∀ es, ¬ EntriesOf iteration x es := fun es hes =>
      absurd (hx.symm.trans (Entries.ofSlot_eq_ok_iff.mpr hes)) (by simp)
    have hno' : ∀ fs, ¬ EntriesOf iteration y fs := fun fs hfs =>
      have ⟨es, hes, _⟩ := h.symm.exists_entriesOf hfs
      hno es hes
    rw [← hx, Entries.ofSlot_eq_error hno, Entries.ofSlot_eq_error hno', h.kind_eq]
    exact .error rfl

end Slot.Alike

namespace Cursor

variable {c d : Cursor}

/-- Alike templates start alike. -/
theorem alike_start {t u : Template} (h : t.Alike u) : (start t).Alike (start u) := by
  obtain ⟨lead, rest⟩ := t
  obtain ⟨lead', rest'⟩ := u
  obtain ⟨hsegments, hslots⟩ := h
  obtain ⟨rfl, htexts⟩ := List.cons.inj hsegments
  refine ⟨rfl, ?_⟩
  simp only [Template.slots, List.forall₂_map_left_iff, List.forall₂_map_right_iff] at hslots
  have hrest : List.Forall₂ Eq (rest.map Prod.snd) (rest'.map Prod.snd) := by
    rw [List.forall₂_eq_eq_eq]
    exact htexts
  rw [List.forall₂_map_left_iff, List.forall₂_map_right_iff] at hrest
  exact hslots.mp (fun _ _ hslot htext => ⟨hslot, htext⟩) hrest

theorem Alike.takeSlot? (h : c.Alike d) :
    Option.Rel (fun p q => p.1.Alike q.1 ∧ p.2.Alike q.2) c.takeSlot? d.takeSlot? := by
  obtain ⟨text, ahead⟩ := c
  obtain ⟨text', ahead'⟩ := d
  obtain ⟨-, hahead⟩ := h
  cases hahead with
  | nil => exact .none
  | cons hp hrest =>
    obtain ⟨hslot, hsegment⟩ := hp
    simp only [Cursor.takeSlot?, hsegment]
    exact .some ⟨hslot, rfl, hrest⟩

theorem Alike.readOperand (h : c.Alike d) (half : Half) :
    Agree Eq (fun p q => p.1.Alike q.1 ∧ p.2.Alike q.2) (c.readOperand half)
      (d.readOperand half) := by
  have hslot := h.takeSlot?
  rw [Cursor.readOperand, Cursor.readOperand, h.text]
  generalize c.takeSlot? = x, d.takeSlot? = y at hslot
  split
  · cases hslot with
    | none => exact .error rfl
    | some hslot =>
      obtain ⟨hslot, hrest⟩ := hslot
      simp only [hslot.isNullish_eq]
      split
      · exact .error rfl
      · exact .ok ⟨.slot hslot, hrest⟩
  · split
    · exact .error rfl
    · exact .ok ⟨.reference _, rfl, h.ahead⟩

theorem Alike.readColon (h : c.Alike d) : Agree Eq Cursor.Alike c.readColon d.readColon := by
  rw [Cursor.readColon, Cursor.readColon, h.text]
  split
  · exact .ok ⟨rfl, h.ahead⟩
  · exact .error rfl

theorem Alike.readBindings (h : c.Alike d) :
    Agree Eq (fun p q => p.1 = q.1 ∧ p.2.Alike q.2) c.readBindings d.readBindings := by
  rw [Cursor.readBindings, Cursor.readBindings, h.text]
  refine (Agree.refl (fun _ => rfl) (fun _ => rfl) _).bind fun b b' hb => ?_
  exact .ok ⟨hb, rfl, h.ahead⟩

theorem Alike.readEntries (h : c.Alike d) (iteration : Iteration) :
    Agree Eq (fun p q => p.1.toList.length = q.1.toList.length ∧ p.2.Alike q.2)
      (c.readEntries iteration) (d.readEntries iteration) := by
  have hslot := h.takeSlot?
  rw [Cursor.readEntries, Cursor.readEntries]
  generalize c.takeSlot? = x, d.takeSlot? = y at hslot
  cases hslot with
  | none => exact .error rfl
  | some hslot =>
    obtain ⟨hslot, hrest⟩ := hslot
    exact hslot.ofSlot.bind fun es fs hlength => .ok ⟨hlength, hrest⟩

theorem Alike.readEnd (h : c.Alike d) : Agree Eq (fun _ _ => True) c.readEnd d.readEnd := by
  obtain ⟨text, ahead⟩ := c
  obtain ⟨text', ahead'⟩ := d
  obtain ⟨htext, hahead⟩ := h
  simp only [Cursor.readEnd, show text = text' from htext]
  cases text'.dropWhile isClosing with
  | cons ch rest => exact .error rfl
  | nil =>
    cases hahead with
    | nil => exact .ok trivial
    | cons hp _ => exact .error (congrArg ParseError.extraSlot hp.1.kind_eq)

end Cursor

/-- Alike operands are bound alike. -/
theorem Operand.Alike.bind {o o' : Operand} (h : o.Alike o') (b : Bindings) :
    Agree Eq Provider.Alike (Provider.bind b o) (Provider.bind b o') := by
  cases h with
  | reference r =>
    simp only [Provider.bind]
    split
    · exact .error rfl
    · split
      · exact .error rfl
      · exact .ok (.field _ _ _)
  | slot h =>
    cases h with
    | function f g => exact .ok (.function f g)
    | value _ => exact .ok (.constant _ _)

/-! ### Reading as a whole -/

/-- Alike templates are refused for the same reason, or read as alike plans. -/
theorem ofTemplate_agree {t u : Template} (h : t.Alike u) :
    Agree Eq Plan.Alike (Plan.ofTemplate t) (Plan.ofTemplate u) := by
  refine ((Cursor.alike_start h).readOperand .key).bind fun (key, c) (key', d) ⟨hkey, hc⟩ => ?_
  refine hc.readColon.bind fun c d hc => ?_
  refine (hc.readOperand .value).bind fun (value, c) (value', d) ⟨hvalue, hc⟩ => ?_
  refine hc.readBindings.bind fun (b, c) (b', d) ⟨hb, hc⟩ => ?_
  obtain rfl : b = b' := hb
  refine (hc.readEntries b.iteration).bind fun (es, c) (fs, d) ⟨hentries, hc⟩ => ?_
  refine hc.readEnd.bind fun _ _ _ => ?_
  refine (hkey.bind b).bind fun p p' hp => ?_
  refine (hvalue.bind b).bind fun q q' hq => ?_
  exact .ok ⟨hp, hq, rfl, hentries⟩

/-- A run whose value is the same for every entry writes only that value. -/
theorem Plan.get?_eq_of_constant {p : Plan} {v : Value} (hv : p.value = .constant v)
    {m : Mapping Value} (hm : p.run.2 = .ok m) {k : String} {w : Value} (hw : m.get? k = some w) :
    w = v := by
  rw [Plan.run] at hm
  rcases (Plan.get?_of_fill_eq_ok hm k w).mp hw with ⟨before, e, after, -, he, -⟩ | ⟨hempty, -⟩
  · have hvalue := he.value
    rw [hv] at hvalue
    exact (Except.ok.inj hvalue).symm
  · rw [Mapping.get?_empty] at hempty
    exact absurd hempty (by simp)

/-- The value of a derivation whose value is a slot is provided as it is. -/
theorem value_eq_constant {t : Template} {d : Derivation} {v : Value} {p : Plan}
    (hd : d.Derives t.stream) (hv : d.value = .slot (.value v)) (hp : Plan.ofTemplate t = .ok p) :
    p.value = .constant v := by
  obtain ⟨-, hdenotes⟩ := hd.valid_and_denotes hp
  have hprovider := hdenotes.value
  rw [hv] at hprovider
  generalize p.value = q at hprovider
  cases hprovider
  rfl

/-- What slots contain decides neither whether nor how a template is read: templates with the same
segments and alike slots are refused for the same reason or read as alike plans.  And a value in a
slot that stands for the value of the entries is itself the value of each, whatever it looks like. -/
theorem ofTemplate_agree_and_constant_value :
    (∀ t u : Template, t.Alike u → Agree Eq Plan.Alike (Plan.ofTemplate t) (Plan.ofTemplate u)) ∧
    ∀ (t : Template) (d : Derivation) (v : Value) (m : Mapping Value), d.Derives t.stream →
      d.value = .slot (.value v) → t.evaluate = .ok m → ∀ k w, m.get? k = some w → w = v := by
  refine ⟨fun t u h => ofTemplate_agree h, fun t d v m hd hv hm k w hw => ?_⟩
  obtain ⟨p, hp, hrun⟩ := evaluate_eq_ok_iff.mp hm
  exact Plan.get?_eq_of_constant (value_eq_constant hd hv hp) hrun hw

/-- A text that looks like a reference is read like the empty text, and is not followed. -/
theorem ofTemplate_agree_of_text_like_reference :
    let t : Template := ⟨"", [(.function .ok, ":"), (.value (.string "it.name"), "over"),
      (.value (.array [.string "a"]), "")]⟩
    let u : Template := ⟨"", [(.function .ok, ":"), (.value (.string ""), "over"),
      (.value (.array [.null]), "")]⟩
    Agree Eq Plan.Alike (Plan.ofTemplate t) (Plan.ofTemplate u) ∧
      ∃ m, t.evaluate = .ok m ∧ m.keys = ["a"] ∧
        ∀ k w, m.get? k = some w → w = .string "it.name" := by
  intro t u
  let d : Derivation := ⟨0, .slot (.function .ok), .slot (.value (.string "it.name")), .implicit,
    ["it"], .value (.array [.string "a"]), []⟩
  obtain ⟨hagree, hconstant⟩ := ofTemplate_agree_and_constant_value
  have hvalue : Value.Alike (.string "it.name") (.string "") :=
    ⟨rfl, fun _ _ h => by simp at h, fun _ _ h => by simp at h⟩
  have hsource : Value.Alike (.array [.string "a"]) (.array [.null]) := by
    refine ⟨rfl, fun vs ws hv hw => ?_, fun _ _ h => by simp at h⟩
    rw [← Value.array.inj hv, ← Value.array.inj hw]
    rfl
  have hslots : List.Forall₂ Slot.Alike t.slots u.slots :=
    .cons (.function _ _) (.cons (.value hvalue) (.cons (.value hsource) .nil))
  have hderives : d.Derives t.stream := by
    have h := Derivation.Derives.intro (d := d) blank_nil blank_nil blank_nil blank_nil blank_nil
      blank_nil (.slot _) (.slot _) (by simp [d]) .implicit (by simp [d])
    convert h using 1
    simp [Template.stream, symbols, t, d]
  let p : Plan := ⟨.function .ok, .constant (.string "it.name"), .implicit,
    .items [.string "a"]⟩
  have hp : Plan.ofTemplate t = .ok p := rfl
  let m : Mapping Value := Mapping.empty.insert "a" (.string "it.name")
  have hm : t.evaluate = .ok m := by
    rw [evaluate_eq hp]
    rfl
  exact ⟨hagree t u ⟨rfl, hslots⟩, m, hm, rfl, hconstant t d (.string "it.name") m hderives rfl hm⟩

end Comprehension
