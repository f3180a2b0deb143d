import Comprehension.Proofs.Evaluation

/-!
# The events of a run

A run reports that a template has been read, each value that is overwritten, and at last that there
is no result where that is allowed.  The values that are overwritten are found from the entries
alone: an entry overwrites one when an earlier entry has produced its key and none up to it fails,
and the value is that of the nearest such entry.  Every entry of a run that succeeds either adds a
key or overwrites a value, so that the two numbers add up to the number of entries.

## Main definitions

* `Plan.Overwrites`: the value that the entry at a position overwrites.

## Main results

* `Plan.exists_positions_of_fill`: the values that are overwritten from some entry on.
* `Plan.length_fill_add_length_keys`: overwritten values and keys account for the entries.
* `events_account_for_entries`: the events of a template.
-/

namespace Comprehension

/-! ### Keys after a write -/

/-- Setting a key overwrites a value or adds a key. -/
theorem Mapping.length_keys_insert {α : Type} (m : Mapping α) (k : String) (a : α) :
    (m.get? k).toList.length + (m.insert k a).keys.length = m.keys.length + 1 := by
  have hmem : ∀ q, q ∈ (m.insert k a).keys ↔ q = k ∨ q ∈ m.keys := by
    intro q
    rw [mem_keys_iff, mem_keys_iff, get?_insert]
    by_cases hq : q = k <;> simp [hq]
  have hnodup : ∀ n : Mapping α, n.keys.Nodup := nodup_keys
  cases hk : m.get? k with
  | some b =>
    have hin : k ∈ m.keys := mem_keys_iff.mpr ⟨b, hk⟩
    have hperm : (m.insert k a).keys.Perm m.keys := by
      refine (List.perm_ext_iff_of_nodup (hnodup _) (hnodup _)).mpr fun q => ?_
      rw [hmem, or_iff_right_of_imp fun hq => hq ▸ hin]
    rw [hperm.length_eq, Option.toList_some, List.length_singleton, Nat.add_comm]
  | none =>
    have hout : k ∉ m.keys := fun hin => by
      obtain ⟨b, hb⟩ := mem_keys_iff.mp hin
      exact Option.some_ne_none b (hb.symm.trans hk)
    have hperm : (m.insert k a).keys.Perm (k :: m.keys) := by
      have hcons : (k :: m.keys).Nodup := List.nodup_cons.mpr ⟨hout, hnodup m⟩
      refine (List.perm_ext_iff_of_nodup (hnodup _) hcons).mpr fun q => ?_
      rw [hmem, List.mem_cons]
    rw [hperm.length_eq, Option.toList_none, List.length_nil, Nat.zero_add, List.length_cons]

namespace Plan

variable {p : Plan}

/-! ### Runs in two parts -/

/-- A run that succeeds may go on with more entries. -/
theorem fill_append {m m' : Mapping Value} {es : List Value} (h : (p.fill m es).2 = .ok m')
    (fs : List Value) :
    p.fill m (es ++ fs) = ((p.fill m es).1 ++ (p.fill m' fs).1, (p.fill m' fs).2) := by
  induction es generalizing m with
  | nil =>
    obtain rfl := Except.ok.inj h
    rfl
  | cons e es ih =>
    cases he : p.entry e with
    | error err => simp [fill, he] at h
    | ok r =>
      simp only [fill, he] at h
      simp only [List.cons_append, fill, he, ih h, List.append_assoc]

/-- No entry of a run that succeeds fails. -/
theorem not_fails_of_fill_eq_ok {m m' : Mapping Value} {es : List Value}
    (h : (p.fill m es).2 = .ok m') : ∀ e ∈ es, ∀ err, ¬ p.Fails e err := by
  intro e he err hf
  obtain ⟨err', hfirst⟩ := exists_firstFailure he hf
  exact absurd (h.symm.trans (fill_eq_error_iff.mpr hfirst)) (by simp)

/-- After a run from the empty mapping, the value at a key is the last one that was written. -/
theorem get?_eq_some_iff_lastWrite {m : Mapping Value} {es : List Value}
    (h : (p.fill .empty es).2 = .ok m) {k : String} {v : Value} :
    m.get? k = some v ↔ p.LastWrite es k v := by
  rw [get?_of_fill_eq_ok h, Mapping.get?_empty]
  simp

/-! ### Overwritten values -/

/-- The entry at a position overwrites a value: no entry before it fails, and the value is that of
the nearest entry before it with the same key. -/
def Overwrites (p : Plan) (es : List Value) (i : Nat) (w : Value) : Prop :=
  ∃ e k v, es[i]? = some e ∧ (∀ b ∈ es.take i, ∀ err, ¬ p.Fails b err) ∧ p.Produces e k v ∧
    p.LastWrite (es.take i) k w

variable {before es : List Value} {e w : Value} {i : Nat}

/-- The entry after a run that succeeds overwrites what the run has left at its key. -/
theorem overwrites_length_iff {m : Mapping Value} (hm : (p.fill .empty before).2 = .ok m)
    {k : String} {v : Value} (he : p.Produces e k v) :
    p.Overwrites (before ++ e :: es) before.length w ↔ m.get? k = some w := by
  rw [get?_eq_some_iff_lastWrite hm, Overwrites, List.take_left]
  constructor
  · rintro ⟨e', k', v', hat, -, he', hlast⟩
    obtain rfl : e = e' := by simpa using hat
    obtain ⟨rfl, rfl⟩ :=
      Prod.mk.inj (Except.ok.inj ((entry_of_produces he).symm.trans (entry_of_produces he')))
    exact hlast
  · exact fun hlast => ⟨e, k, v, by simp, not_fails_of_fill_eq_ok hm, he, hlast⟩

/-- Nothing is overwritten from an entry that fails on. -/
theorem not_overwrites_of_fails {err : EvalError} (he : p.Fails e err) (hi : before.length ≤ i) :
    ¬ p.Overwrites (before ++ e :: es) i w := by
  rintro ⟨e', k, v, hat, hbefore, he', -⟩
  rcases Nat.eq_or_lt_of_le hi with rfl | hlt
  · obtain rfl : e = e' := by simpa using hat
    exact forall_not_fails_iff.mpr ⟨k, v, he'⟩ err he
  · refine hbefore e ?_ err he
    obtain ⟨j, rfl⟩ := Nat.exists_eq_add_of_lt hlt
    rw [Nat.add_assoc, List.take_length_add_append]
    simp

/-- The entries that overwrite a value from some entry on, in their order, and the values. -/
theorem exists_positions_of_fill {m : Mapping Value} (hm : (p.fill .empty before).2 = .ok m)
    (es : List Value) :
    ∃ positions : List Nat, positions.Pairwise (· < ·) ∧
      (∀ i, i ∈ positions ↔ before.length ≤ i ∧ ∃ w, p.Overwrites (before ++ es) i w) ∧
      List.Forall₂ (p.Overwrites (before ++ es)) positions (p.fill m es).1 := by
  induction es generalizing before m with
  | nil =>
    refine ⟨[], .nil, fun i => ⟨fun h => absurd h List.not_mem_nil, ?_⟩, .nil⟩
    rintro ⟨hi, w, e, k, v, hat, -⟩
    rw [List.append_nil, List.getElem?_eq_none hi] at hat
    exact absurd hat (by simp)
  | cons e es ih =>
    cases he : p.entry e with
    | error err =>
      have hfails := entry_eq_error_iff.mp he
      simp only [fill, he]
      refine ⟨[], .nil, fun i => ⟨fun h => absurd h List.not_mem_nil, ?_⟩, .nil⟩
      rintro ⟨hi, w, hw⟩
      exact absurd hw (not_overwrites_of_fails hfails hi)
    | ok r =>
      obtain ⟨k, v⟩ := r
      have hproduces := entry_eq_ok_iff.mp he
      -- The entry moves to the part that has been run.
      have hm' : (p.fill .empty (before ++ [e])).2 = .ok (m.insert k v) := by
        rw [fill_append hm]
        simp only [fill, he]
      have happend : before ++ [e] ++ es = before ++ e :: es := by simp
      obtain ⟨positions, hascending, hmem, hvalues⟩ := ih hm'
      rw [happend] at hmem hvalues
      simp only [List.length_append, List.length_singleton] at hmem
      simp only [fill, he]
      cases hk : m.get? k with
      | none =>
        refine ⟨positions, hascending, fun i => ?_, hvalues⟩
        rw [hmem, Nat.succ_le_iff, Nat.le_iff_lt_or_eq, or_and_right, iff_self_or]
        rintro ⟨rfl, w, hw⟩
        exact absurd ((overwrites_length_iff hm hproduces).mp hw) (by simp [hk])
      | some w =>
        have hover : p.Overwrites (before ++ e :: es) before.length w :=
          (overwrites_length_iff hm hproduces).mpr hk
        refine ⟨before.length :: positions, .cons (fun i hi => ((hmem i).mp hi).1) hascending,
          fun i => ?_, .cons hover hvalues⟩
        rw [List.mem_cons, hmem, Nat.succ_le_iff, Nat.le_iff_lt_or_eq, or_and_right, or_comm]
        refine or_congr_right ⟨fun hi => ⟨hi.symm, w, hi ▸ hover⟩, fun hi => hi.1.symm⟩

/-- Each entry of a run that succeeds overwrites a value or adds a key. -/
theorem length_fill_add_length_keys {m m' : Mapping Value} (h : (p.fill m es).2 = .ok m') :
    (p.fill m es).1.length + m'.keys.length = es.length + m.keys.length := by
  induction es generalizing m with
  | nil =>
    obtain rfl := Except.ok.inj h
    rfl
  | cons e es ih =>
    cases he : p.entry e with
    | error err => simp [fill, he] at h
    | ok r =>
      simp only [fill, he] at h ⊢
      have hrest := ih h
      have hinsert := m.length_keys_insert r.1 r.2
      rw [List.length_append, List.length_cons]
      omega

end Plan

/-! ### The events of a template -/

theorem runSafe_eq (t : Template) :
    t.runSafe = ⟨t.evaluate.toOption, t.run.events ++
      match t.evaluate with
      | .ok _ => []
      | .error f => [.noResult f.message]⟩ := by
  rw [Template.runSafe, Template.evaluate]
  obtain ⟨result, events⟩ := t.run
  cases result with
  | ok m => rw [List.append_nil]; rfl
  | error f => rfl

/-- A template that can be read reports this first, then, in the order of the entries, each value
that an entry overwrites, and where failures are allowed and there is no result, the error at last.
Overwritten values and keys of the result add up to the number of entries. -/
theorem events_account_for_entries (t : Template) :
    (∀ e, Plan.ofTemplate t = .error e → t.run.events = []) ∧
    (∀ p, Plan.ofTemplate t = .ok p → ∃ (positions : List Nat) (values : List Value),
      t.run.events = .parsed p.bindings.iteration p.bindings.names p.entries.toList.length ::
        values.map (fun v => .overwritten (Json.Layout.compact.text v)) ∧
      positions.Pairwise (· < ·) ∧
      (∀ i, i ∈ positions ↔ ∃ v, p.Overwrites p.entries.toList i v) ∧
      List.Forall₂ (p.Overwrites p.entries.toList) positions values ∧
      ∀ m, t.evaluate = .ok m → values.length + m.keys.length = p.entries.toList.length) ∧
    t.runSafe.result = t.evaluate.toOption ∧
    (∀ m, t.evaluate = .ok m → t.runSafe.events = t.run.events) ∧
    ∀ f, t.evaluate = .error f → t.runSafe.events = t.run.events ++ [.noResult f.message] := by
  refine ⟨fun e he => ?_, fun p hp => ?_, by rw [runSafe_eq], fun m hm => ?_, fun f hf => ?_⟩
  · rw [Template.run, he]
  · have hempty : (p.fill .empty []).2 = .ok .empty := rfl
    obtain ⟨positions, hascending, hmem, hvalues⟩ :=
      Plan.exists_positions_of_fill hempty p.entries.toList
    refine ⟨positions, p.run.1, ?_, hascending, fun i => ?_, hvalues, fun m hm => ?_⟩
    · rw [Template.run, hp]
    · rw [hmem, List.nil_append, List.length_nil]
      exact and_iff_right (Nat.zero_le i)
    · obtain ⟨p', hp', hrun⟩ := evaluate_eq_ok_iff.mp hm
      obtain rfl := Except.ok.inj (hp.symm.trans hp')
      exact Plan.length_fill_add_length_keys hrun
  · rw [runSafe_eq, hm, List.append_nil]
  · rw [runSafe_eq, hf]

/-- The text `"1"` overwrites the value of the number `1`, so that three entries give two keys.  An
entry that is no key ends the run, and its error comes after the overwritten value. -/
theorem events_account_for_same_text :
    let t (last : Value) : Template := ⟨"", [(.function .ok, ":"), (.function .ok, "over"),
      (.value (.array [.integer 1, .string "1", last]), "")]⟩
    (∃ values : List Value, values.length + 2 = 3 ∧ (t (.integer 2)).runSafe.events =
      .parsed .implicit ["it"] 3 ::
        values.map fun v => .overwritten (Json.Layout.compact.text v)) ∧
    (t .null).runSafe.events = (t .null).run.events ++
      [.noResult "evaluation error: key must be either a string or a number, not a(n) null"] := by
  intro t
  let p (last : Value) : Plan := ⟨.function .ok, .function .ok, .implicit,
    .items [.integer 1, .string "1", last]⟩
  let m : Mapping Value := .ofList [("1", .string "1"), ("2", .integer 2)]
  have hp : ∀ last, Plan.ofTemplate (t last) = .ok (p last) := fun _ => rfl
  have hm : (t (.integer 2)).evaluate = .ok m := evaluate_eq_ok_iff.mpr ⟨_, hp _, rfl⟩
  have hnull : (t .null).evaluate = .error (.evaluation (.invalidKey .null)) := by
    rw [evaluate_eq (hp .null)]
    rfl
  obtain ⟨-, hparsed, -, hsucceeds, -⟩ := events_account_for_entries (t (.integer 2))
  obtain ⟨positions, values, hevents, -, -, -, hcount⟩ := hparsed _ (hp _)
  obtain ⟨-, -, -, -, hfails⟩ := events_account_for_entries (t .null)
  have htext : (Failure.evaluation (.invalidKey .null)).message =
      "evaluation error: key must be either a string or a number, not a(n) null" := by decide
  refine ⟨⟨values, hcount m hm, (hsucceeds m hm).trans hevents⟩, ?_⟩
  rw [hfails _ hnull, htext]

end Comprehension
