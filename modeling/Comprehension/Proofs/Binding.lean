import Comprehension.Plan

/-!
# Binding operands and taking entries

What the names of a clause make of an operand, and what an iteration makes of a source, as
relations.  A reference is read from the last position of its bound name, so that a later binding
hides an earlier one.

## Main definitions

* `ProviderOf`: what an operand provides under the names of a clause.
* `EntriesOf`: the entries of a source.

## Main results

* `Provider.bind_eq_ok_iff`, `Entries.ofSlot_eq_ok_iff`: binding and taking entries succeed exactly
  where these relations hold.
-/

namespace Comprehension

theorem lastPosition?_eq_none_iff {name : String} {ns : List String} :
    lastPosition? name ns = none ↔ name ∉ ns := by
  rw [← isSome_lastPosition?_iff]
  cases lastPosition? name ns <;> simp

/-- The position of a name is the last one that has it. -/
theorem lastPosition?_eq_some_iff {name : String} {ns : List String} {i : Nat} :
    lastPosition? name ns = some i ↔
      ns[i]? = some name ∧ ∀ j, i < j → ns[j]? ≠ some name := by
  induction ns generalizing i with
  | nil => simp [lastPosition?]
  | cons n ns ih =>
    rw [lastPosition?]
    cases hlast : lastPosition? name ns with
    | some k =>
      obtain ⟨hk, hlater⟩ := ih.mp hlast
      constructor
      · intro h
        obtain rfl := Option.some.inj h
        refine ⟨hk, fun j hj => ?_⟩
        obtain ⟨j, rfl⟩ := Nat.exists_eq_succ_of_ne_zero (by omega : j ≠ 0)
        exact hlater j (by omega)
      · rintro ⟨hi, hnot⟩
        cases i with
        | zero => exact absurd hk (hnot (k + 1) (by omega))
        | succ i =>
          have h := ih.mpr ⟨hi, fun j hj => hnot (j + 1) (by omega)⟩
          rw [hlast] at h
          obtain rfl := Option.some.inj h
          rfl
    | none =>
      have hno : ∀ j, ns[j]? ≠ some name := fun j hj =>
        lastPosition?_eq_none_iff.mp hlast (List.mem_of_getElem? hj)
      constructor
      · intro h
        simp only [Option.ite_none_right_eq_some, Option.some.injEq] at h
        obtain ⟨rfl, rfl⟩ := h
        refine ⟨rfl, fun j hj => ?_⟩
        obtain ⟨j, rfl⟩ := Nat.exists_eq_succ_of_ne_zero (by omega : j ≠ 0)
        exact hno j
      · rintro ⟨hi, -⟩
        cases i with
        | zero =>
          obtain rfl := Option.some.inj hi
          simp
        | succ i => exact absurd hi (hno i)

/-- What an operand provides under names: a function or a constant from its own slot, or the path of
its reference from the last position of its bound name, in an entry that is split when there are
several names. -/
inductive ProviderOf (names : List String) : Operand → Provider → Prop
  | function (f : Value → Except String Value) :
      ProviderOf names (.slot (.function f)) (.function f)
  | constant (v : Value) : ProviderOf names (.slot (.value v)) (.constant v)
  | field {r : Reference} {i : Nat} :
      names[i]? = some r.head → (∀ j, i < j → names[j]? ≠ some r.head) →
      ProviderOf names (.reference r) (.field r i (1 < names.length))

/-- A reference can be bound when its name is bound and, where keys are walked, it has no members to
follow. -/
theorem Provider.bind_eq_ok_iff {b : Bindings} {o : Operand} {p : Provider} :
    Provider.bind b o = .ok p ↔
      (∀ r, o = .reference r → r.head ∈ b.names ∧ (b.iteration = .keys → r.tail = [])) ∧
      ProviderOf b.names o p := by
  constructor
  · intro h
    unfold Provider.bind at h
    split at h
    · obtain rfl := Except.ok.inj h
      exact ⟨fun r hr => absurd hr (by simp), .function _⟩
    · obtain rfl := Except.ok.inj h
      exact ⟨fun r hr => absurd hr (by simp), .constant _⟩
    · rename_i r
      split at h
      · exact absurd h (by simp)
      · rename_i i hposition
        split at h
        · exact absurd h (by simp)
        · rename_i hpath
          obtain rfl := Except.ok.inj h
          obtain ⟨hi, hlater⟩ := lastPosition?_eq_some_iff.mp hposition
          refine ⟨fun r' hr' => ?_, .field hi hlater⟩
          obtain rfl := Operand.reference.inj hr'
          exact ⟨List.mem_of_getElem? hi, fun hkeys =>
            Decidable.byContradiction fun htail => hpath ⟨hkeys, htail⟩⟩
  · rintro ⟨hr, h⟩
    cases h with
    | function f => rfl
    | constant v => rfl
    | @field r i hi hlater =>
      have hposition : b.position? r.head = some i := lastPosition?_eq_some_iff.mpr ⟨hi, hlater⟩
      have hpath : ¬ (b.iteration = .keys ∧ r.tail ≠ []) := fun h => h.2 ((hr r rfl).2 h.1)
      rw [Provider.bind, hposition]
      simp only
      rw [if_neg hpath, Bindings.destructures]

/-- Every bound reference has a provider. -/
theorem exists_providerOf {names : List String} {o : Operand}
    (h : ∀ r, o = .reference r → r.head ∈ names) : ∃ p, ProviderOf names o p := by
  cases o with
  | reference r =>
    obtain ⟨i, hi⟩ := Option.isSome_iff_exists.mp (isSome_lastPosition?_iff.mpr (h r rfl))
    obtain ⟨hat, hlater⟩ := lastPosition?_eq_some_iff.mp hi
    exact ⟨_, .field hat hlater⟩
  | slot x =>
    cases x with
    | value v => exact ⟨_, .constant v⟩
    | function f => exact ⟨_, .function f⟩

theorem Iteration.walksItems_iff {iteration : Iteration} :
    iteration.walksItems = true ↔ iteration ≠ .keys := by
  cases iteration <;> simp [walksItems]

theorem Iteration.walksItems_eq_false_iff {iteration : Iteration} :
    iteration.walksItems = false ↔ iteration = .keys := by
  cases iteration <;> simp [walksItems]

/-- The entries of a source: the items of an array, the names of an object, or the positions of an
array, written in decimal. -/
inductive EntriesOf : Iteration → Slot → Entries → Prop
  | items {iteration : Iteration} {vs : List Value} :
      iteration ≠ .keys → EntriesOf iteration (.value (.array vs)) (.items vs)
  | names {ms : List (String × Value)} :
      EntriesOf .keys (.value (.object ms)) (.keys (ms.map Prod.fst))
  | positions {vs : List Value} :
      EntriesOf .keys (.value (.array vs))
        (.keys ((List.range vs.length).map fun i => String.ofList (Nat.toDigits 10 i)))

theorem Entries.ofSlot_eq_ok_iff {iteration : Iteration} {x : Slot} {es : Entries} :
    Entries.ofSlot iteration x = .ok es ↔ EntriesOf iteration x es := by
  constructor
  · intro h
    cases x with
    | function f => exact absurd h (by simp [Entries.ofSlot])
    | value v =>
      simp only [Entries.ofSlot, Entries.ofValue] at h
      split at h
      · rename_i hitems
        obtain rfl := Except.ok.inj h
        exact .items (Iteration.walksItems_iff.mp hitems)
      · rename_i hkeys
        obtain rfl := Except.ok.inj h
        obtain rfl := Iteration.walksItems_eq_false_iff.mp hkeys
        exact .names
      · rename_i hkeys
        obtain rfl := Except.ok.inj h
        obtain rfl := Iteration.walksItems_eq_false_iff.mp hkeys
        exact .positions
      · exact absurd h (by simp)
  · intro h
    cases h with
    | items hi =>
      cases iteration with
      | implicit => rfl
      | each => rfl
      | keys => exact absurd rfl hi
    | names => rfl
    | positions => rfl

/-- A source without entries is refused for what it is. -/
theorem Entries.ofSlot_eq_error {iteration : Iteration} {x : Slot}
    (h : ∀ es, ¬ EntriesOf iteration x es) :
    Entries.ofSlot iteration x = .error (.invalidSource iteration (some x.kind)) := by
  cases hx : Entries.ofSlot iteration x with
  | ok es => exact absurd (ofSlot_eq_ok_iff.mp hx) (h es)
  | error e =>
    cases x with
    | function f => exact hx.symm
    | value v =>
      simp only [Entries.ofSlot, Entries.ofValue] at hx
      split at hx
      · exact absurd hx (by simp)
      · exact absurd hx (by simp)
      · exact absurd hx (by simp)
      · exact hx.symm

theorem Entries.ofSlot_eq_error_iff {iteration : Iteration} {x : Slot} {e : ParseError} :
    Entries.ofSlot iteration x = .error e ↔
      (∀ es, ¬ EntriesOf iteration x es) ∧ e = .invalidSource iteration (some x.kind) := by
  constructor
  · intro h
    have hnone : ∀ es, ¬ EntriesOf iteration x es := by
      intro es hes
      rw [ofSlot_eq_ok_iff.mpr hes] at h
      exact absurd h (by simp)
    exact ⟨hnone, Except.error.inj (h.symm.trans (ofSlot_eq_error hnone))⟩
  · rintro ⟨hnone, rfl⟩
    exact ofSlot_eq_error hnone

/-- The sources that have entries. -/
theorem exists_entriesOf_iff {iteration : Iteration} {x : Slot} :
    (∃ es, EntriesOf iteration x es) ↔
      (∃ vs, x = .value (.array vs)) ∨ iteration = .keys ∧ ∃ ms, x = .value (.object ms) := by
  constructor
  · rintro ⟨es, h⟩
    cases h with
    | @items _ vs _ => exact Or.inl ⟨vs, rfl⟩
    | @names ms => exact Or.inr ⟨rfl, ms, rfl⟩
    | @positions vs => exact Or.inl ⟨vs, rfl⟩
  · rintro (⟨vs, rfl⟩ | ⟨rfl, ms, rfl⟩)
    · by_cases hi : iteration = .keys
      · subst hi
        exact ⟨_, .positions⟩
      · exact ⟨_, .items hi⟩
    · exact ⟨_, .names⟩

end Comprehension
