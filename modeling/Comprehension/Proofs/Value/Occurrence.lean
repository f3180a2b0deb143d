import Comprehension.Proofs.Double.Equality
import Comprehension.Value.Basic

/-!
# The values inside a value

A value occurs in itself and in the arrays and objects that have it, directly or further inside.
Several conditions on values say what does not occur in them; each holds of an array or an object
when it holds of the items or the members.

## Main definitions

* `Value.Occurs`: the values inside a value.
* `Value.FloatFree`, `Value.NaNFree`, `Value.NegativeZeroFree`, `Value.UndefinedFree`,
  `Value.DistinctNames`: what does not occur in a value.
* `Value.depth`: how deep arrays and objects are nested.
-/

namespace Comprehension.Value

/-! ### Occurrences -/

/-- A value occurs in itself and wherever it occurs in an item or a member. -/
inductive Occurs (u : Value) : Value → Prop
  | refl : Occurs u u
  | item {v : Value} {items : List Value} : v ∈ items → Occurs u v → Occurs u (array items)
  | member {m : String × Value} {members : List (String × Value)} :
      m ∈ members → Occurs u m.2 → Occurs u (object members)

/-- No double occurs in the value. -/
def FloatFree (v : Value) : Prop := ∀ x, ¬ Occurs (float x) v

/-- Every double that occurs in the value is a number. -/
def NaNFree (v : Value) : Prop := ∀ x : Double, x.isNaN = true → ¬ Occurs (float x) v

/-- The negative zero does not occur in the value. -/
def NegativeZeroFree (v : Value) : Prop := ¬ Occurs (float Double.negativeZero) v

/-- The undefined value does not occur in the value. -/
def UndefinedFree (v : Value) : Prop := ¬ Occurs undefined v

/-- In every object that occurs in the value the names of the members are distinct. -/
def DistinctNames (v : Value) : Prop :=
  ∀ members, Occurs (object members) v → (members.map Prod.fst).Nodup

theorem not_occurs_array_iff {u : Value} {items : List Value} (hu : u ≠ array items) :
    ¬ Occurs u (array items) ↔ ∀ v ∈ items, ¬ Occurs u v := by
  constructor
  · intro h v hv huv
    exact h (.item hv huv)
  · rintro h (_ | ⟨hv, huv⟩)
    · exact hu rfl
    · exact h _ hv huv

theorem not_occurs_object_iff {u : Value} {members : List (String × Value)}
    (hu : u ≠ object members) :
    ¬ Occurs u (object members) ↔ ∀ m ∈ members, ¬ Occurs u m.2 := by
  constructor
  · intro h m hm hum
    exact h (.member hm hum)
  · rintro h (_ | _ | ⟨hm, hum⟩)
    · exact hu rfl
    · exact h _ hm hum

theorem floatFree_array_iff {items : List Value} :
    (array items).FloatFree ↔ ∀ v ∈ items, v.FloatFree := by
  constructor
  · intro h v hv x
    exact (not_occurs_array_iff (u := float x) nofun).mp (h x) v hv
  · intro h x
    exact (not_occurs_array_iff (u := float x) nofun).mpr fun v hv => h v hv x

theorem floatFree_object_iff {members : List (String × Value)} :
    (object members).FloatFree ↔ ∀ m ∈ members, m.2.FloatFree := by
  constructor
  · intro h m hm x
    exact (not_occurs_object_iff (u := float x) nofun).mp (h x) m hm
  · intro h x
    exact (not_occurs_object_iff (u := float x) nofun).mpr fun m hm => h m hm x

theorem naNFree_float_iff {x : Double} : (float x).NaNFree ↔ x.isNaN = false := by
  constructor
  · intro h
    exact Bool.not_eq_true _ ▸ fun hx => h x hx .refl
  · rintro h y hy ⟨⟩
    exact absurd (h.symm.trans hy) (by simp)

theorem naNFree_array_iff {items : List Value} :
    (array items).NaNFree ↔ ∀ v ∈ items, v.NaNFree := by
  constructor
  · intro h v hv x hx
    exact (not_occurs_array_iff (u := float x) nofun).mp (h x hx) v hv
  · intro h x hx
    exact (not_occurs_array_iff (u := float x) nofun).mpr fun v hv => h v hv x hx

theorem naNFree_object_iff {members : List (String × Value)} :
    (object members).NaNFree ↔ ∀ m ∈ members, m.2.NaNFree := by
  constructor
  · intro h m hm x hx
    exact (not_occurs_object_iff (u := float x) nofun).mp (h x hx) m hm
  · intro h x hx
    exact (not_occurs_object_iff (u := float x) nofun).mpr fun m hm => h m hm x hx

theorem negativeZeroFree_float_iff {x : Double} :
    (float x).NegativeZeroFree ↔ x ≠ .negativeZero := by
  constructor
  · rintro h rfl
    exact h .refl
  · rintro h ⟨⟩
    exact h rfl

theorem negativeZeroFree_array_iff {items : List Value} :
    (array items).NegativeZeroFree ↔ ∀ v ∈ items, v.NegativeZeroFree :=
  not_occurs_array_iff nofun

theorem negativeZeroFree_object_iff {members : List (String × Value)} :
    (object members).NegativeZeroFree ↔ ∀ m ∈ members, m.2.NegativeZeroFree :=
  not_occurs_object_iff nofun

theorem undefinedFree_array_iff {items : List Value} :
    (array items).UndefinedFree ↔ ∀ v ∈ items, v.UndefinedFree :=
  not_occurs_array_iff nofun

theorem undefinedFree_object_iff {members : List (String × Value)} :
    (object members).UndefinedFree ↔ ∀ m ∈ members, m.2.UndefinedFree :=
  not_occurs_object_iff nofun

theorem distinctNames_array_iff {items : List Value} :
    (array items).DistinctNames ↔ ∀ v ∈ items, v.DistinctNames := by
  constructor
  · intro h v hv members hm
    exact h members (.item hv hm)
  · rintro h members hm
    cases hm with
    | item hv hm => exact h _ hv members hm

theorem distinctNames_object_iff {members : List (String × Value)} :
    (object members).DistinctNames ↔
      (members.map Prod.fst).Nodup ∧ ∀ m ∈ members, m.2.DistinctNames := by
  constructor
  · intro h
    refine ⟨h members .refl, fun m hm ns hns => h ns (.member hm hns)⟩
  · rintro ⟨hnames, h⟩ ns hns
    cases hns with
    | refl => exact hnames
    | member hm hns => exact h _ hm ns hns

/-! ### Depth -/

mutual

/-- How many arrays and objects are nested in a value. -/
def depth : Value → Nat
  | array items => depthItems items + 1
  | object members => depthMembers members + 1
  | _ => 0

def depthItems : List Value → Nat
  | [] => 0
  | v :: vs => max (depth v) (depthItems vs)

def depthMembers : List (String × Value) → Nat
  | [] => 0
  | (_, v) :: ms => max (depth v) (depthMembers ms)

end

theorem depthItems_le_iff {items : List Value} {n : Nat} :
    depthItems items ≤ n ↔ ∀ v ∈ items, v.depth ≤ n := by
  induction items with
  | nil => simp [depthItems]
  | cons v vs ih => rw [depthItems, Nat.max_le, ih, List.forall_mem_cons]

theorem depthMembers_le_iff {members : List (String × Value)} {n : Nat} :
    depthMembers members ≤ n ↔ ∀ m ∈ members, m.2.depth ≤ n := by
  induction members with
  | nil => simp [depthMembers]
  | cons m ms ih => rw [depthMembers, Nat.max_le, ih, List.forall_mem_cons]

theorem depth_le_depthItems {items : List Value} {v : Value} (hv : v ∈ items) :
    v.depth ≤ depthItems items :=
  depthItems_le_iff.mp (Nat.le_refl _) v hv

theorem depth_le_depthMembers {members : List (String × Value)} {m : String × Value}
    (hm : m ∈ members) : m.2.depth ≤ depthMembers members :=
  depthMembers_le_iff.mp (Nat.le_refl _) m hm

end Comprehension.Value
