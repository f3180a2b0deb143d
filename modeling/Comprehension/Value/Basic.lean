import Comprehension.Double.Basic
import Comprehension.Mapping

/-!
# Values

A value is a JSON value in which integers and other numbers are kept apart, or the undefined
value, which stands for something absent.  An object lists its members in the order in which they
were first written.
-/

namespace Comprehension

/-- A value that flows through a comprehension. -/
inductive Value
  | undefined
  | null
  | boolean (b : Bool)
  | float (x : Double)
  | integer (n : Int64)
  | string (s : String)
  | array (items : List Value)
  | object (members : List (String × Value))

/-- The kinds of values. -/
inductive Kind
  | undefined
  | null
  | boolean
  | integer
  | float
  | string
  | array
  | object
  deriving DecidableEq

/-- The name of a kind in messages. -/
def Kind.name : Kind → String
  | undefined => "undefined"
  | null => "null"
  | boolean => "boolean"
  | integer => "integer"
  | float => "float"
  | string => "string"
  | array => "array"
  | object => "object"

namespace Value

def kind : Value → Kind
  | undefined => .undefined
  | null => .null
  | boolean _ => .boolean
  | float _ => .float
  | integer _ => .integer
  | string _ => .string
  | array _ => .array
  | object _ => .object

def isArray (v : Value) : Bool := v.kind = .array

def isUndefined (v : Value) : Bool := v.kind = .undefined

/-- Null and undefined are the nullish values. -/
def isNullish (v : Value) : Bool := v.kind = .null || v.kind = .undefined

/-- The member of an object with a name.  Other values have no members. -/
def member? (v : Value) (name : String) : Option Value :=
  match v with
  | object members => members.lookup name
  | _ => none

/-- The item of an array at a position.  Other values have no items. -/
def item? (v : Value) (i : Nat) : Option Value :=
  match v with
  | array items => items[i]?
  | _ => none

/-- Members with one set: a name that is already there keeps its place. -/
def setMember (name : String) (v : Value) : List (String × Value) → List (String × Value)
  | [] => [(name, v)]
  | m :: ms => if m.1 = name then (name, v) :: ms else m :: setMember name v ms

/-- The object of a list of pairs: a repeated name keeps its first place and takes the last
value. -/
def ofMembers (pairs : List (String × Value)) : Value :=
  object (pairs.foldl (fun ms p => setMember p.1 p.2 ms) [])

/-- Setting a member adds its name at the end unless it is there. -/
theorem map_fst_setMember (name : String) (v : Value) (ms : List (String × Value)) :
    (setMember name v ms).map Prod.fst =
      if name ∈ ms.map Prod.fst then ms.map Prod.fst else ms.map Prod.fst ++ [name] := by
  induction ms with
  | nil => simp [setMember]
  | cons m ms ih =>
    rw [setMember]
    by_cases h : m.1 = name
    · simp [h]
    · have hn : ¬ name = m.1 := fun e => h e.symm
      simp only [if_neg h, List.map_cons, ih, List.mem_cons, hn, false_or]
      split <;> simp

theorem mem_setMember {name : String} {v : Value} {ms : List (String × Value)}
    {m : String × Value} (h : m ∈ setMember name v ms) : m = (name, v) ∨ m ∈ ms := by
  induction ms with
  | nil => exact .inl (List.mem_singleton.mp h)
  | cons n ms ih =>
    rw [setMember] at h
    split at h
    · exact (List.mem_cons.mp h).imp_right (List.mem_cons_of_mem _)
    · rcases List.mem_cons.mp h with rfl | h
      · exact .inr List.mem_cons_self
      · exact (ih h).imp_right (List.mem_cons_of_mem _)

theorem nodup_setMember {name : String} {v : Value} {ms : List (String × Value)}
    (h : (ms.map Prod.fst).Nodup) : ((setMember name v ms).map Prod.fst).Nodup := by
  rw [map_fst_setMember]
  split
  · exact h
  · rename_i hn
    refine List.nodup_append.mpr ⟨h, List.pairwise_singleton _ _, fun a ha b hb => ?_⟩
    rw [List.mem_singleton.mp hb]
    exact fun e => hn (e ▸ ha)

/-- The object of a list of pairs has members with distinct names, and each of them is a pair of
the list. -/
theorem exists_ofMembers_eq (pairs : List (String × Value)) :
    ∃ ms, ofMembers pairs = object ms ∧ (ms.map Prod.fst).Nodup ∧ ∀ m ∈ ms, m ∈ pairs := by
  refine ⟨_, rfl, List.foldlRecOn (motive := fun (ms : List (String × Value)) =>
    (ms.map Prod.fst).Nodup ∧ ∀ m ∈ ms, m ∈ pairs) pairs _ ⟨List.nodup_nil, nofun⟩ ?_⟩
  rintro ms ⟨hnames, hmem⟩ p hp
  refine ⟨nodup_setMember hnames, fun m hm => ?_⟩
  rcases mem_setMember hm with rfl | hm
  · exact hp
  · exact hmem m hm

/-- The object of a mapping, with its members in ascending order. -/
def ofMapping (m : Mapping Value) : Value := object m.entries

/-- A property of all values follows from that of the items and the members of each. -/
@[elab_as_elim]
theorem induction {P : Value → Prop} (undefined : P undefined) (null : P null)
    (boolean : ∀ b, P (boolean b)) (float : ∀ x, P (float x)) (integer : ∀ n, P (integer n))
    (string : ∀ s, P (string s)) (array : ∀ items, (∀ v ∈ items, P v) → P (array items))
    (object : ∀ members, (∀ m ∈ members, P m.2) → P (object members)) (v : Value) : P v :=
  Value.rec (motive_1 := P) (motive_2 := fun items => ∀ v ∈ items, P v)
    (motive_3 := fun members => ∀ m ∈ members, P m.2) (motive_4 := fun m => P m.2)
    undefined null boolean float integer string array object
    (fun _ h => absurd h List.not_mem_nil)
    (fun _ _ hv hvs _ h => by
      rcases List.mem_cons.mp h with rfl | h
      · exact hv
      · exact hvs _ h)
    (fun _ h => absurd h List.not_mem_nil)
    (fun _ _ hm hms _ h => by
      rcases List.mem_cons.mp h with rfl | h
      · exact hm
      · exact hms _ h)
    (fun _ _ hv => hv) v

end Value

end Comprehension
