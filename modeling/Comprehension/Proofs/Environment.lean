import Comprehension.Proofs.Fault
import Comprehension.Proofs.Mapping

/-!
# Environments of entries

Binding a reference resolves its name to a position, once for all entries.  An evaluation could
instead bind the names one after the other for each entry, so that a later binding hides an earlier
one, look the name of the reference up, and follow its path from there.  Both ways give the same
value for every entry.

## Main definitions

* `Bindings.environment`: the names of a clause with their values for an entry.
* `Value.along`: the value at the end of a path of members.

## Main results

* `get?_ofList_mapIdx`: the last position of a name is where an environment finds its value.
* `Provider.provide_field_eq`: a bound reference gives the value of its environment.
* `reference_agrees_with_environment`: when a reference can be bound, and what it then provides.
-/

namespace Comprehension

/-! ### Environments -/

namespace Bindings

/-- What the name at a position is bound to: the whole entry where there is a single name, and
otherwise the item at the position, or the undefined value where the entry has no such item. -/
def valueAt (b : Bindings) (entry : Value) (i : Nat) : Value :=
  if b.names.length = 1 then entry else (entry.item? i).getD .undefined

/-- The names of a clause, each bound in its turn, so that a later binding hides an earlier one. -/
def environment (b : Bindings) (entry : Value) : Mapping Value :=
  .ofList (b.names.mapIdx fun i name => (name, b.valueAt entry i))

end Bindings

/-- The value at the end of a path of members.  It is undefined as soon as a member is absent or the
path goes on at a value that is no object. -/
def Value.along (v : Value) : List String → Value
  | [] => v
  | name :: path =>
    match v with
    | .object members =>
      match members.lookup name with
      | some w => w.along path
      | none => .undefined
    | _ => .undefined

/-- Where names are bound by their positions, a name has the value at its last position. -/
theorem get?_ofList_mapIdx {α : Type} (f : Nat → α) (name : String) (ns : List String) :
    (Mapping.ofList (ns.mapIdx fun i n => (n, f i))).get? name = (lastPosition? name ns).map f := by
  induction ns generalizing f with
  | nil => rfl
  | cons n ns ih =>
    have htail := ih fun i => f (i + 1)
    rw [Mapping.get?_ofList] at htail
    rw [Mapping.get?_ofList, List.mapIdx_cons, List.reverse_cons, List.lookup_append, htail,
      Mapping.lookup_cons_ite, List.lookup_nil, lastPosition?]
    cases lastPosition? name ns with
    | some i => rfl
    | none =>
      by_cases hn : name = n
      · simp [hn]
      · simp [hn, Ne.symm hn]

/-! ### Paths -/

theorem Value.along_undefined (path : List String) : Value.along .undefined path = .undefined := by
  cases path <;> rfl

/-- A path that leads nowhere is a path to the undefined value. -/
theorem Provider.getD_follow? (v : Value) (path : List String) :
    (follow? v path).getD .undefined = v.along path := by
  induction path generalizing v with
  | nil => rfl
  | cons name path ih =>
    rw [follow?, List.foldlM_cons, Value.along.eq_def]
    cases v with
    | object members =>
      simp only [Value.member?]
      cases members.lookup name with
      | none => rfl
      | some w => exact ih w
    | _ => rfl

/-- The value that a bound reference provides is found at its position and followed from there. -/
theorem Provider.provide_field_eq {b : Bindings} {r : Reference} {i : Nat} (h : r.head ∈ b.names)
    (entry : Value) :
    provide entry (.field r i (1 < b.names.length)) = .ok ((b.valueAt entry i).along r.tail) := by
  rw [provide]
  by_cases hmany : 1 < b.names.length
  · rw [Bindings.valueAt, if_neg (Nat.ne_of_gt hmany), if_pos (by simpa using hmany)]
    cases entry.item? i with
    | none =>
      rw [Option.getD_none, Value.along_undefined]
      rfl
    | some v => rw [Option.bind_some, getD_follow?, Option.getD_some]
  · have hone : b.names.length = 1 :=
      Nat.le_antisymm (Nat.not_lt.mp hmany) (List.length_pos_of_mem h)
    rw [Bindings.valueAt, if_pos hone, if_neg (by simpa using hmany), Option.bind_some,
      getD_follow?]

/-! ### Binding a reference -/

theorem Reference.one_lt_length_parts_iff {r : Reference} : 1 < r.parts.length ↔ r.tail ≠ [] := by
  rw [parts, List.length_cons, Nat.lt_add_left_iff_pos, List.length_pos_iff]

/-- A reference is refused when its name is not bound, or when it goes on from the name of a key.
Every other reference gives, for every entry, the value that its path leads to from the value of its
name in the environment of the entry. -/
theorem reference_agrees_with_environment (b : Bindings) (r : Reference) :
    (Provider.bind b (.reference r) = .error (.unknownName r.head b.names) ↔ r.head ∉ b.names) ∧
    (Provider.bind b (.reference r) = .error (.keyTraversal r.raw) ↔
      r.head ∈ b.names ∧ b.iteration = .keys ∧ 1 < r.parts.length) ∧
    (r.head ∈ b.names → ¬ (b.iteration = .keys ∧ 1 < r.parts.length) →
      ∃ p, Provider.bind b (.reference r) = .ok p ∧
        ∀ entry, ∃ v, (b.environment entry).get? r.head = some v ∧
          p.provide entry = .ok (v.along r.tail)) := by
  simp only [Provider.bind_eq_error_iff, Reference.one_lt_length_parts_iff]
  refine ⟨⟨?_, .unbound⟩, ⟨?_, fun ⟨hmem, hkeys, htail⟩ => .traversal hmem hkeys htail⟩,
    fun hmem hpath => ?_⟩
  · intro h
    generalize he : ParseError.unknownName r.head b.names = e at h
    cases h with
    | unbound hnot => exact hnot
    | traversal => exact absurd he (by simp)
  · intro h
    generalize he : ParseError.keyTraversal r.raw = e at h
    cases h with
    | unbound => exact absurd he (by simp)
    | traversal hmem hkeys htail => exact ⟨hmem, hkeys, htail⟩
  · obtain ⟨i, hi⟩ := Option.isSome_iff_exists.mp (isSome_lastPosition?_iff.mpr hmem)
    obtain ⟨hat, hlater⟩ := lastPosition?_eq_some_iff.mp hi
    refine ⟨_, Provider.bind_eq_ok_iff.mpr ⟨fun r' hr' => ?_, .field hat hlater⟩, fun entry => ?_⟩
    · obtain rfl := Operand.reference.inj hr'
      exact ⟨hmem, fun hkeys => Decidable.byContradiction fun htail => hpath ⟨hkeys, htail⟩⟩
    · refine ⟨b.valueAt entry i, ?_, Provider.provide_field_eq hmem entry⟩
      rw [Bindings.environment, get?_ofList_mapIdx, hi]
      rfl

/-- The last of two names `a` counts, its null member is kept, and an entry that is too short leaves
it undefined. -/
theorem reference_agrees_with_environment_of_repeated_name :
    let b : Bindings := ⟨.each, ["a", "b", "a"], nofun⟩
    let r : Reference := ⟨"a", ["x"]⟩
    ∃ p, Provider.bind b (.reference r) = .ok p ∧
      p.provide (.array [.boolean true, .null, .object [("x", .null)]]) = .ok .null ∧
      p.provide (.array [.object [("x", .null)]]) = .ok .undefined := by
  intro b r
  obtain ⟨p, hp, hprovide⟩ := (reference_agrees_with_environment b r).2.2 (by decide) (by decide)
  obtain ⟨v, hv, hlong⟩ := hprovide (.array [.boolean true, .null, .object [("x", .null)]])
  obtain ⟨w, hw, hshort⟩ := hprovide (.array [.object [("x", .null)]])
  rw [Bindings.environment, get?_ofList_mapIdx] at hv hw
  obtain rfl : .object [("x", .null)] = v := Option.some.inj hv
  obtain rfl : .undefined = w := Option.some.inj hw
  exact ⟨p, hp, hlong, hshort⟩

end Comprehension
