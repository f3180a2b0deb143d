import Comprehension.Evaluation
import Comprehension.Proofs.Agreement
import Comprehension.Proofs.Mapping

/-!
# The outcome of an evaluation

An entry of the source either fails, in one of four ways that are checked in a fixed order, or
produces one key and one value.  The outcome of an evaluation is read off from that: the first entry
that fails gives the error, and without one the last entry that produces a key gives its value.

## Main definitions

* `Plan.Fails`, `Plan.Produces`: what an entry comes to.
* `Plan.FirstFailure`, `Plan.LastWrite`: the first entry that fails, the last that produces a key.

## Main results

* `Plan.entry_eq_error_iff`, `Plan.entry_eq_ok_iff`: one entry.
* `Plan.fill_eq_error_iff`, `Plan.get?_of_fill_eq_ok`: a run over entries.
* `evaluate_first_failure_last_write`: the outcome for a template.
-/

namespace Comprehension

/-- Providers fail only because a function rejects the entry. -/
theorem Provider.exists_function {p : Provider} {e : Value} {err : EvalError}
    (h : p.provide e = .error err) :
    ∃ f message, p = .function f ∧ f e = .error message ∧ err = .rejected message := by
  cases p with
  | function f =>
    rw [Provider.provide, except_mapError_eq_error_iff] at h
    obtain ⟨message, hf, rfl⟩ := h
    exact ⟨f, message, rfl, hf, rfl⟩
  | constant v => exact absurd h (by simp [Provider.provide])
  | field r i destructures => exact absurd h (by simp [Provider.provide])

theorem Provider.exists_rejected {p : Provider} {e : Value} {err : EvalError}
    (h : p.provide e = .error err) : ∃ message, err = .rejected message := by
  obtain ⟨_, message, -, -, herr⟩ := exists_function h
  exact ⟨message, herr⟩

namespace Plan

/-! ### One entry -/

/-- Several names are bound to the items of an entry that is not an array. -/
def CannotUnpack (p : Plan) (e : Value) : Prop :=
  1 < p.bindings.names.length ∧ p.bindings.iteration ≠ .keys ∧ ∀ items, e ≠ .array items

/-- The kinds of values that are keys. -/
def IsKeyKind (kind : Kind) : Prop := kind = .string ∨ kind = .integer ∨ kind = .float

/-- The ways in which an entry fails, each with the checks before it passed. -/
inductive Fails (p : Plan) (e : Value) : EvalError → Prop
  | unpack : p.CannotUnpack e →
      Fails p e (.cannotUnpack (Json.Layout.compact.text e) p.bindings.names)
  | key {message : String} : ¬ p.CannotUnpack e → p.key.provide e = .error (.rejected message) →
      Fails p e (.rejected message)
  | kind {k : Value} : ¬ p.CannotUnpack e → p.key.provide e = .ok k → ¬ IsKeyKind k.kind →
      Fails p e (.invalidKey k.kind)
  | value {k : Value} {message : String} : ¬ p.CannotUnpack e → p.key.provide e = .ok k →
      IsKeyKind k.kind → p.value.provide e = .error (.rejected message) →
      Fails p e (.rejected message)

/-- An entry that passes all checks produces the text of its key and its value. -/
structure Produces (p : Plan) (e : Value) (name : String) (v : Value) : Prop where
  unpack : ¬ p.CannotUnpack e
  key : ∃ k, p.key.provide e = .ok k ∧ k.keyText? = some name
  value : p.value.provide e = .ok v

theorem cannotUnpack_iff {p : Plan} {e : Value} :
    (p.bindings.unpacks && !e.isArray) = true ↔ p.CannotUnpack e := by
  have harray : e.isArray = false ↔ ∀ items, e ≠ .array items := by
    cases e <;> simp [Value.isArray, Value.kind]
  have hwalks : p.bindings.iteration.walksItems = true ↔ p.bindings.iteration ≠ .keys := by
    cases p.bindings.iteration <;> simp [Iteration.walksItems]
  rw [Bool.and_eq_true, Bindings.unpacks, Bool.and_eq_true, Bool.not_eq_true', harray, hwalks,
    Bindings.destructures, decide_eq_true_eq, CannotUnpack, and_assoc]

theorem isKeyKind_iff {k : Value} : IsKeyKind k.kind ↔ ∃ name, k.keyText? = some name := by
  rw [IsKeyKind, ← Value.isSome_keyText?_iff, Option.isSome_iff_exists]

/-- The steps of an entry that passes the first check. -/
private theorem entry_of_not_cannotUnpack {p : Plan} {e : Value} (h : ¬ p.CannotUnpack e) :
    p.entry e = (p.key.provide e).bind fun k =>
      match k.keyText? with
      | none => .error (.invalidKey k.kind)
      | some name => (p.value.provide e).bind fun v => .ok (name, v) := by
  have hcheck : (p.bindings.unpacks && !e.isArray) = false :=
    Bool.eq_false_iff.mpr fun hc => h (cannotUnpack_iff.mp hc)
  rw [entry, hcheck]
  rfl

theorem entry_of_fails {p : Plan} {e : Value} {err : EvalError} (h : p.Fails e err) :
    p.entry e = .error err := by
  cases h with
  | unpack hu =>
    rw [entry, cannotUnpack_iff.mpr hu]
    rfl
  | key hu hkey =>
    rw [entry_of_not_cannotUnpack hu, hkey]
    rfl
  | @kind k hu hkey hkind =>
    have htext : k.keyText? = none := by
      cases hk : k.keyText? with
      | none => rfl
      | some name => exact absurd (isKeyKind_iff.mpr ⟨name, hk⟩) hkind
    rw [entry_of_not_cannotUnpack hu, hkey]
    simp only [Except.bind, htext]
  | value hu hkey hkind hvalue =>
    obtain ⟨name, hname⟩ := isKeyKind_iff.mp hkind
    rw [entry_of_not_cannotUnpack hu, hkey]
    simp only [Except.bind, hname, hvalue]

theorem entry_of_produces {p : Plan} {e : Value} {name : String} {v : Value}
    (h : p.Produces e name v) : p.entry e = .ok (name, v) := by
  obtain ⟨hu, ⟨k, hkey, htext⟩, hvalue⟩ := h
  rw [entry_of_not_cannotUnpack hu, hkey]
  simp only [Except.bind, htext, hvalue]

/-- The checks are exhaustive: an entry fails one of them or passes them all. -/
theorem fails_or_produces (p : Plan) (e : Value) :
    (∃ err, p.Fails e err) ∨ ∃ name v, p.Produces e name v := by
  by_cases hu : p.CannotUnpack e
  · exact .inl ⟨_, .unpack hu⟩
  cases hkey : p.key.provide e with
  | error err =>
    obtain ⟨message, rfl⟩ := Provider.exists_rejected hkey
    exact .inl ⟨_, .key hu hkey⟩
  | ok k =>
    by_cases hkind : IsKeyKind k.kind
    · obtain ⟨name, hname⟩ := isKeyKind_iff.mp hkind
      cases hvalue : p.value.provide e with
      | error err =>
        obtain ⟨message, rfl⟩ := Provider.exists_rejected hvalue
        exact .inl ⟨_, .value hu hkey hkind hvalue⟩
      | ok v => exact .inr ⟨name, v, hu, ⟨k, hkey, hname⟩, hvalue⟩
    · exact .inl ⟨_, .kind hu hkey hkind⟩

theorem entry_eq_error_iff {p : Plan} {e : Value} {err : EvalError} :
    p.entry e = .error err ↔ p.Fails e err := by
  refine ⟨fun h => ?_, entry_of_fails⟩
  rcases p.fails_or_produces e with ⟨err', hf⟩ | ⟨name, v, hp⟩
  · obtain rfl := Except.error.inj (h.symm.trans (entry_of_fails hf))
    exact hf
  · exact absurd (h.symm.trans (entry_of_produces hp)) (by simp)

theorem entry_eq_ok_iff {p : Plan} {e : Value} {name : String} {v : Value} :
    p.entry e = .ok (name, v) ↔ p.Produces e name v := by
  refine ⟨fun h => ?_, entry_of_produces⟩
  rcases p.fails_or_produces e with ⟨err, hf⟩ | ⟨name', v', hp⟩
  · exact absurd (h.symm.trans (entry_of_fails hf)) (by simp)
  · obtain ⟨rfl, rfl⟩ := Prod.mk.inj (Except.ok.inj (h.symm.trans (entry_of_produces hp)))
    exact hp

/-- An entry that does not fail produces a key and a value. -/
theorem forall_not_fails_iff {p : Plan} {e : Value} :
    (∀ err, ¬ p.Fails e err) ↔ ∃ name v, p.Produces e name v := by
  constructor
  · intro h
    rcases p.fails_or_produces e with ⟨err, hf⟩ | hp
    · exact absurd hf (h err)
    · exact hp
  · rintro ⟨name, v, hp⟩ err hf
    exact absurd ((entry_of_produces hp).symm.trans (entry_of_fails hf)) (by simp)

/-! ### A run over entries -/

/-- The entry that produces `v` at `k` is the last one of the list that produces anything there. -/
def LastWrite (p : Plan) (es : List Value) (k : String) (v : Value) : Prop :=
  ∃ before e after, es = before ++ e :: after ∧ p.Produces e k v ∧
    ∀ a ∈ after, ∀ w, ¬ p.Produces a k w

theorem lastWrite_cons_iff {p : Plan} {e : Value} {es : List Value} {k : String} {v : Value} :
    p.LastWrite (e :: es) k v ↔
      p.LastWrite es k v ∨ p.Produces e k v ∧ ∀ a ∈ es, ∀ w, ¬ p.Produces a k w := by
  constructor
  · rintro ⟨before, x, after, heq, hx, hafter⟩
    cases before with
    | nil =>
      obtain ⟨rfl, rfl⟩ := List.cons.inj heq
      exact Or.inr ⟨hx, hafter⟩
    | cons b before =>
      obtain ⟨-, rfl⟩ := List.cons.inj heq
      exact Or.inl ⟨before, x, after, rfl, hx, hafter⟩
  · rintro (⟨before, x, after, rfl, hx, hafter⟩ | ⟨he, hes⟩)
    · exact ⟨e :: before, x, after, rfl, hx, hafter⟩
    · exact ⟨[], e, es, rfl, he, hes⟩

/-- A key that an entry produces has a last entry that produces it. -/
theorem exists_lastWrite_iff {p : Plan} {es : List Value} {k : String} :
    (∃ v, p.LastWrite es k v) ↔ ∃ e ∈ es, ∃ v, p.Produces e k v := by
  constructor
  · rintro ⟨v, before, e, after, rfl, he, -⟩
    exact ⟨e, List.mem_append_right _ List.mem_cons_self, v, he⟩
  · intro h
    induction es with
    | nil =>
      obtain ⟨e, he, -⟩ := h
      exact absurd he List.not_mem_nil
    | cons x es ih =>
      by_cases hlater : ∃ a ∈ es, ∃ w, p.Produces a k w
      · obtain ⟨w, hw⟩ := ih hlater
        exact ⟨w, lastWrite_cons_iff.mpr (Or.inl hw)⟩
      · obtain ⟨e, he, v, hv⟩ := h
        have hnone : ∀ a ∈ es, ∀ w, ¬ p.Produces a k w := fun a ha w hw => hlater ⟨a, ha, w, hw⟩
        rcases List.mem_cons.mp he with rfl | he
        · exact ⟨v, lastWrite_cons_iff.mpr (Or.inr ⟨hv, hnone⟩)⟩
        · exact absurd hv (hnone e he v)

/-- The first entry of the list that fails does so with the error. -/
def FirstFailure (p : Plan) (es : List Value) (err : EvalError) : Prop :=
  ∃ before e after, es = before ++ e :: after ∧ (∀ b ∈ before, ∀ err', ¬ p.Fails b err') ∧
    p.Fails e err

theorem firstFailure_cons_iff {p : Plan} {e : Value} {es : List Value} {err : EvalError} :
    p.FirstFailure (e :: es) err ↔
      p.Fails e err ∨ (∀ err', ¬ p.Fails e err') ∧ p.FirstFailure es err := by
  constructor
  · rintro ⟨before, x, after, heq, hbefore, hx⟩
    cases before with
    | nil =>
      obtain ⟨rfl, rfl⟩ := List.cons.inj heq
      exact Or.inl hx
    | cons b before =>
      obtain ⟨rfl, rfl⟩ := List.cons.inj heq
      obtain ⟨hb, hbefore⟩ := List.forall_mem_cons.mp hbefore
      exact Or.inr ⟨hb, before, x, after, rfl, hbefore, hx⟩
  · rintro (he | ⟨he, before, x, after, rfl, hbefore, hx⟩)
    · exact ⟨[], e, es, rfl, List.forall_mem_nil _, he⟩
    · exact ⟨e :: before, x, after, rfl, List.forall_mem_cons.mpr ⟨he, hbefore⟩, hx⟩

/-- If an entry fails, there is a first one that does. -/
theorem exists_firstFailure {p : Plan} {es : List Value} {e : Value} {err : EvalError}
    (he : e ∈ es) (hf : p.Fails e err) : ∃ err', p.FirstFailure es err' := by
  induction es with
  | nil => exact absurd he List.not_mem_nil
  | cons x es ih =>
    by_cases hx : ∃ err', p.Fails x err'
    · obtain ⟨err', hx⟩ := hx
      exact ⟨err', firstFailure_cons_iff.mpr (Or.inl hx)⟩
    · have hok : ∀ err', ¬ p.Fails x err' := fun err' h => hx ⟨err', h⟩
      rcases List.mem_cons.mp he with rfl | he
      · exact absurd hf (hok err)
      · obtain ⟨err', h⟩ := ih he
        exact ⟨err', firstFailure_cons_iff.mpr (Or.inr ⟨hok, h⟩)⟩

/-- A run ends with the error of the first entry that fails. -/
theorem fill_eq_error_iff {p : Plan} {m : Mapping Value} {es : List Value} {err : EvalError} :
    (p.fill m es).2 = .error err ↔ p.FirstFailure es err := by
  induction es generalizing m with
  | nil =>
    refine ⟨fun h => absurd h (by simp [fill]), ?_⟩
    rintro ⟨before, e, after, h, -⟩
    exact absurd h (by simp)
  | cons e es ih =>
    rw [firstFailure_cons_iff]
    cases he : p.entry e with
    | error err' =>
      have hfails := entry_eq_error_iff.mp he
      simp only [fill, he, Except.error.injEq]
      constructor
      · rintro rfl
        exact Or.inl hfails
      · rintro (hf | ⟨hok, -⟩)
        · exact Except.error.inj (he.symm.trans (entry_of_fails hf))
        · exact absurd hfails (hok err')
    | ok r =>
      have hok : ∀ err', ¬ p.Fails e err' :=
        forall_not_fails_iff.mpr ⟨r.1, r.2, entry_eq_ok_iff.mp he⟩
      simp only [fill, he, ih]
      constructor
      · exact fun h => Or.inr ⟨hok, h⟩
      · rintro (hf | ⟨-, h⟩)
        · exact absurd hf (hok err)
        · exact h

/-- After a run, a key has the value of the last entry that produces it, and its old value if none
does. -/
theorem get?_of_fill_eq_ok {p : Plan} {m m' : Mapping Value} {es : List Value}
    (h : (p.fill m es).2 = .ok m') (k : String) (v : Value) :
    m'.get? k = some v ↔
      p.LastWrite es k v ∨ m.get? k = some v ∧ ∀ e ∈ es, ∀ w, ¬ p.Produces e k w := by
  induction es generalizing m with
  | nil =>
    obtain rfl := Except.ok.inj h
    constructor
    · exact fun hv => Or.inr ⟨hv, fun e he => absurd he List.not_mem_nil⟩
    · rintro (⟨before, e, after, heq, -⟩ | ⟨hv, -⟩)
      · exact absurd heq (by simp)
      · exact hv
  | cons e es ih =>
    cases he : p.entry e with
    | error err => simp [fill, he] at h
    | ok r =>
      obtain ⟨name, v₀⟩ := r
      simp only [fill, he] at h
      have hproduces : ∀ q w, p.Produces e q w ↔ q = name ∧ w = v₀ := by
        intro q w
        rw [← entry_eq_ok_iff, he, Except.ok.injEq, Prod.mk.injEq]
        exact ⟨fun h => ⟨h.1.symm, h.2.symm⟩, fun h => ⟨h.1.symm, h.2.symm⟩⟩
      rw [ih h, Mapping.get?_insert, lastWrite_cons_iff, or_assoc]
      refine or_congr_right ?_
      by_cases hk : k = name
      · subst hk
        simp only [if_true, Option.some.injEq, hproduces, true_and, List.mem_cons, forall_eq_or_imp]
        constructor
        · rintro ⟨rfl, hno⟩
          exact Or.inl ⟨rfl, hno⟩
        · rintro (⟨rfl, hno⟩ | ⟨-, hno, -⟩)
          · exact ⟨rfl, hno⟩
          · exact absurd rfl (hno v₀)
      · rw [if_neg hk]
        simp only [hproduces, hk, false_and, false_or, List.mem_cons, forall_eq_or_imp,
          not_false_eq_true, implies_true, true_and]

end Plan

/-! ### The outcome for a template -/

/-- The outcome of a template that can be read is the outcome of the run over its entries. -/
theorem evaluate_eq {t : Template} {p : Plan} (h : Plan.ofTemplate t = .ok p) :
    t.evaluate = p.run.2.mapError .evaluation := by
  rw [Template.evaluate, Template.run, h]

/-- An evaluation reads the template and then runs over the entries of its plan. -/
theorem evaluate_eq_bind (t : Template) :
    t.evaluate =
      (Plan.ofTemplate t).mapError .parse >>= fun p => p.run.2.mapError .evaluation := by
  rw [Template.evaluate, Template.run]
  cases Plan.ofTemplate t <;> rfl

theorem evaluate_eq_ok_iff {t : Template} {m : Mapping Value} :
    t.evaluate = .ok m ↔ ∃ p, Plan.ofTemplate t = .ok p ∧ p.run.2 = .ok m := by
  cases hp : Plan.ofTemplate t with
  | error e => simp [evaluate_eq_bind, hp, Except.mapError, bind, Except.bind]
  | ok p => simp [evaluate_eq hp, except_mapError_eq_ok_iff]

/-- An evaluation succeeds when no entry fails.  The keys are then those that entries produce, each
with the value of the last entry that produces it.  Otherwise it gives the error of the first entry
that fails, whatever comes after it. -/
theorem evaluate_first_failure_last_write {t : Template} {p : Plan}
    (h : Plan.ofTemplate t = .ok p) :
    ((∃ m, t.evaluate = .ok m) ↔ ∀ e ∈ p.entries.toList, ∀ err, ¬ p.Fails e err) ∧
    (∀ m, t.evaluate = .ok m →
      (∀ k, k ∈ m.keys ↔ ∃ e ∈ p.entries.toList, ∃ v, p.Produces e k v) ∧
      ∀ k v, m.get? k = some v ↔ p.LastWrite p.entries.toList k v) ∧
    ∀ f, t.evaluate = .error f ↔
      ∃ before e after err, p.entries.toList = before ++ e :: after ∧
        (∀ b ∈ before, ∀ err', ¬ p.Fails b err') ∧ p.Fails e err ∧ f = .evaluation err := by
  have hget : ∀ m, t.evaluate = .ok m → ∀ k v,
      m.get? k = some v ↔ p.LastWrite p.entries.toList k v := by
    intro m hm k v
    rw [evaluate_eq h, except_mapError_eq_ok_iff, Plan.run] at hm
    rw [Plan.get?_of_fill_eq_ok hm, Mapping.get?_empty]
    simp
  have herror : ∀ f, t.evaluate = .error f ↔
      ∃ before e after err, p.entries.toList = before ++ e :: after ∧
        (∀ b ∈ before, ∀ err', ¬ p.Fails b err') ∧ p.Fails e err ∧ f = .evaluation err := by
    intro f
    rw [evaluate_eq h, except_mapError_eq_error_iff]
    constructor
    · rintro ⟨err, hrun, rfl⟩
      obtain ⟨before, e, after, heq, hbefore, he⟩ := Plan.fill_eq_error_iff.mp hrun
      exact ⟨before, e, after, err, heq, hbefore, he, rfl⟩
    · rintro ⟨before, e, after, err, heq, hbefore, he, rfl⟩
      exact ⟨err, Plan.fill_eq_error_iff.mpr ⟨before, e, after, heq, hbefore, he⟩, rfl⟩
  refine ⟨⟨?_, ?_⟩, fun m hm => ⟨fun k => ?_, hget m hm⟩, herror⟩
  · rintro ⟨m, hm⟩ e he err hf
    obtain ⟨err', before, x, after, heq, hbefore, hx⟩ := Plan.exists_firstFailure he hf
    have hfail := (herror (.evaluation err')).mpr ⟨before, x, after, err', heq, hbefore, hx, rfl⟩
    exact absurd (hm.symm.trans hfail) (by simp)
  · intro hall
    cases hout : t.evaluate with
    | ok m => exact ⟨m, rfl⟩
    | error f =>
      obtain ⟨before, e, after, err, heq, -, he, -⟩ := (herror f).mp hout
      have hmem : e ∈ p.entries.toList := by
        rw [heq]
        exact List.mem_append_right _ List.mem_cons_self
      exact absurd he (hall e hmem err)
  · rw [Mapping.mem_keys_iff, ← Plan.exists_lastWrite_iff]
    exact exists_congr fun v => hget m hm k v

/-- The number `1` and the text `"1"` name the same entry, which has the value of the later one. -/
theorem evaluate_last_write_of_same_text :
    let t : Template := ⟨"", [(.function .ok, ":"), (.function fun e => .ok (.array [e]), "over"),
      (.value (.array [.integer 1, .string "1"]), "")]⟩
    ∃ m, t.evaluate = .ok m ∧ m.get? "1" = some (.array [.string "1"]) := by
  intro t
  let p : Plan := ⟨.function .ok, .function fun e => .ok (.array [e]), .implicit,
    .items [.integer 1, .string "1"]⟩
  have hp : Plan.ofTemplate t = .ok p := rfl
  have hone : p.Produces (.integer 1) "1" (.array [.integer 1]) := Plan.entry_eq_ok_iff.mp rfl
  have htext : p.Produces (.string "1") "1" (.array [.string "1"]) := Plan.entry_eq_ok_iff.mp rfl
  obtain ⟨hsucceeds, hmapping, -⟩ := evaluate_first_failure_last_write hp
  have hall : ∀ e ∈ p.entries.toList, ∀ err, ¬ p.Fails e err := by
    intro e he
    rcases List.mem_cons.mp he with rfl | he
    · exact Plan.forall_not_fails_iff.mpr ⟨_, _, hone⟩
    · rw [List.mem_singleton.mp he]
      exact Plan.forall_not_fails_iff.mpr ⟨_, _, htext⟩
  obtain ⟨m, hm⟩ := hsucceeds.mpr hall
  refine ⟨m, hm, ((hmapping m hm).2 "1" _).mpr ?_⟩
  exact ⟨[.integer 1], .string "1", [], rfl, htext, fun a ha => absurd ha List.not_mem_nil⟩

end Comprehension
