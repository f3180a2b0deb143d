import Comprehension.Proofs.Value.Equality

/-!
# The canonical form of a value

JSON has no undefined value and no order of members.  The canonical form of a value replaces
undefined items by null, drops undefined members and sorts the others by name; it keeps everything
else.  Values that differ only in the order of members have one canonical form, and values without
undefined parts and without doubles are equal exactly when their canonical forms are identical.

## Main definitions

* `Value.canon`: the canonical form.
* `Value.Reordered`: values that differ in the order of members.

## Main results

* `Value.canon_object`: the members of a canonical object.
* `Value.Reordered.canon_eq`: the order of members does not matter.
* `Value.canon_eq_of_equal`, `Value.equal_iff_canon_eq`: equality and equality of canonical forms.
-/

namespace Comprehension.Value

/-! ### The canonical form -/

/-- The members that are not undefined. -/
def definedMembers (members : List (String × Value)) : List (String × Value) :=
  members.filter fun m => !m.2.isUndefined

mutual

/-- The value with undefined items as null, without undefined members and with the other members
in ascending order of their names. -/
def canon : Value → Value
  | undefined => null
  | array items => array (canonItems items)
  | object members => object (Mapping.ofList (canonMembers members)).entries
  | v => v

def canonItems : List Value → List Value
  | [] => []
  | v :: vs => canon v :: canonItems vs

def canonMembers : List (String × Value) → List (String × Value)
  | [] => []
  | (name, v) :: ms =>
    if v.isUndefined then canonMembers ms else (name, canon v) :: canonMembers ms

end

theorem canonItems_eq_map (items : List Value) : canonItems items = items.map canon := by
  induction items with
  | nil => rfl
  | cons v vs ih => rw [canonItems, ih, List.map_cons]

theorem canonMembers_eq_map (members : List (String × Value)) :
    canonMembers members = (definedMembers members).map fun m => (m.1, m.2.canon) := by
  induction members with
  | nil => rfl
  | cons m ms ih =>
    rw [canonMembers, definedMembers, List.filter_cons, ih]
    by_cases hu : m.2.isUndefined = true
    · simp [hu, definedMembers]
    · simp [hu, definedMembers]

theorem canon_array (items : List Value) : canon (array items) = array (items.map canon) := by
  rw [canon, canonItems_eq_map]

/-- The members of a canonical object are the defined members, sorted and in canonical form. -/
theorem canon_object (members : List (String × Value)) :
    canon (object members) =
      object ((Mapping.ofList (definedMembers members)).map canon).entries := by
  rw [canon, canonMembers_eq_map, Mapping.ofList_map]

theorem mem_definedMembers {members : List (String × Value)} {m : String × Value} :
    m ∈ definedMembers members ↔ m ∈ members ∧ m.2.isUndefined = false := by
  rw [definedMembers, List.mem_filter, Bool.not_eq_true']

theorem nodup_definedMembers {members : List (String × Value)} (h : (members.map Prod.fst).Nodup) :
    ((definedMembers members).map Prod.fst).Nodup :=
  h.sublist (List.filter_sublist.map Prod.fst)

theorem isUndefined_eq_false_iff {v : Value} : v.isUndefined = false ↔ v ≠ undefined := by
  cases v <;> simp [isUndefined, kind]

/-- A value without undefined parts loses no member. -/
theorem UndefinedFree.definedMembers_eq {members : List (String × Value)}
    (h : (object members).UndefinedFree) : definedMembers members = members := by
  refine List.filter_eq_self.mpr fun m hm => ?_
  rw [Bool.not_eq_true', isUndefined_eq_false_iff]
  intro hu
  exact undefinedFree_object_iff.mp h m hm (hu ▸ .refl)

/-- Objects have the same canonical form when their defined members match by name and have the same
canonical form. -/
theorem canon_object_eq_iff_matched {ms ns : List (String × Value)}
    (hm : (ms.map Prod.fst).Nodup) (hn : (ns.map Prod.fst).Nodup) :
    canon (object ms) = canon (object ns) ↔
      Matched (fun v w => v.canon = w.canon) (definedMembers ms) (definedMembers ns) := by
  have hkeys {ms : List (String × Value)} (h : (ms.map Prod.fst).Nodup) :
      (((definedMembers ms).map fun m => (m.1, m.2.canon)).map Prod.fst).Nodup := by
    rw [List.map_map]
    exact nodup_definedMembers h
  rw [canon, canon, object.injEq, Mapping.entries_inj, canonMembers_eq_map, canonMembers_eq_map,
    Mapping.ofList_eq_iff_perm (hkeys hm) (hkeys hn),
    Matched.map_perm_iff canon (nodup_definedMembers hm) (nodup_definedMembers hn)]

/-- Every member of the canonical form is that of a defined member. -/
theorem exists_mem_of_mem_canon_object {members : List (String × Value)} {n : String × Value}
    (h : n ∈ ((Mapping.ofList (definedMembers members)).map canon).entries) :
    ∃ m ∈ definedMembers members, n = (m.1, m.2.canon) := by
  obtain ⟨m, hm, rfl⟩ := List.mem_map.mp h
  exact ⟨m, Mapping.mem_of_mem_ofList hm, rfl⟩

theorem canon_ne_undefined (v : Value) : v.canon ≠ undefined := by
  cases v <;> simp [canon]

/-- Members of a mapping stay in their order when the undefined ones are dropped. -/
theorem entries_ofList_definedMembers (m : Mapping Value) :
    (Mapping.ofList (definedMembers m.entries)).entries = definedMembers m.entries :=
  congrArg Mapping.entries
    (Mapping.ofList_entries ⟨definedMembers m.entries, m.ascending.filter _⟩)

/-- The members of a canonical object are all defined. -/
theorem definedMembers_map_canon (m : Mapping Value) :
    definedMembers (m.map canon).entries = (m.map canon).entries := by
  refine List.filter_eq_self.mpr fun n hn => ?_
  obtain ⟨e, -, rfl⟩ := List.mem_map.mp hn
  rw [Bool.not_eq_true', isUndefined_eq_false_iff]
  exact canon_ne_undefined _

/-- A canonical form has distinct names. -/
theorem distinctNames_canon (v : Value) : v.canon.DistinctNames := by
  induction v using Value.induction with
  | array items ih =>
    rw [canon_array, distinctNames_array_iff]
    intro w hw
    obtain ⟨v, hv, rfl⟩ := List.mem_map.mp hw
    exact ih v hv
  | object members ih =>
    rw [canon_object, distinctNames_object_iff]
    refine ⟨Mapping.nodup_keys _, fun n hn => ?_⟩
    obtain ⟨m, hm, rfl⟩ := exists_mem_of_mem_canon_object hn
    exact ih m (mem_definedMembers.mp hm).1
  | _ => rintro members ⟨⟩

/-- The canonical form is nested no deeper than the value. -/
theorem depth_canon_le (v : Value) : v.canon.depth ≤ v.depth := by
  induction v using Value.induction with
  | array items ih =>
    have hitems : depthItems (items.map canon) ≤ depthItems items := by
      refine depthItems_le_iff.mpr fun w hw => ?_
      obtain ⟨v, hv, rfl⟩ := List.mem_map.mp hw
      exact Nat.le_trans (ih v hv) (depth_le_depthItems hv)
    rw [canon_array, depth, depth]
    exact Nat.succ_le_succ hitems
  | object members ih =>
    have hmembers : depthMembers ((Mapping.ofList (definedMembers members)).map canon).entries ≤
        depthMembers members := by
      refine depthMembers_le_iff.mpr fun n hn => ?_
      obtain ⟨m, hm, rfl⟩ := exists_mem_of_mem_canon_object hn
      have hmem := (mem_definedMembers.mp hm).1
      exact Nat.le_trans (ih m hmem) (depth_le_depthMembers hmem)
    rw [canon_object, depth, depth]
    exact Nat.succ_le_succ hmembers
  | _ => exact Nat.le_refl 0

/-! ### The order of members -/

/-- Two values that differ at most in the order of the members of objects, at any depth. -/
inductive Reordered : Value → Value → Prop
  | refl (v : Value) : Reordered v v
  | trans {u v w : Value} : Reordered u v → Reordered v w → Reordered u w
  | item {v w : Value} (before after : List Value) :
      Reordered v w → Reordered (array (before ++ v :: after)) (array (before ++ w :: after))
  | member {v w : Value} (before after : List (String × Value)) (name : String) : Reordered v w →
      Reordered (object (before ++ (name, v) :: after)) (object (before ++ (name, w) :: after))
  | perm {ms ns : List (String × Value)} : ms.Perm ns → Reordered (object ms) (object ns)

theorem Reordered.isUndefined_eq {v w : Value} (h : Reordered v w) :
    v.isUndefined = w.isUndefined := by
  induction h with
  | trans _ _ ihv ihw => exact ihv.trans ihw
  | _ => rfl

theorem Reordered.distinctNames {v w : Value} (h : Reordered v w) (hv : v.DistinctNames) :
    w.DistinctNames := by
  induction h with
  | refl v => exact hv
  | trans _ _ ihv ihw => exact ihw (ihv hv)
  | item before after _ ih =>
    simp only [distinctNames_array_iff, List.forall_mem_append, List.forall_mem_cons] at hv ⊢
    exact ⟨hv.1, ih hv.2.1, hv.2.2⟩
  | member before after name _ ih =>
    simp only [distinctNames_object_iff, List.forall_mem_append, List.forall_mem_cons,
      List.map_append, List.map_cons] at hv ⊢
    exact ⟨hv.1, hv.2.1, ih hv.2.2.1, hv.2.2.2⟩
  | perm hp =>
    obtain ⟨hnames, hmem⟩ := distinctNames_object_iff.mp hv
    refine distinctNames_object_iff.mpr ⟨(hp.map Prod.fst).nodup_iff.mp hnames, fun m hm => ?_⟩
    exact hmem m (hp.mem_iff.mpr hm)

/-- Values that differ in the order of members have the same canonical form. -/
theorem Reordered.canon_eq {v w : Value} (h : Reordered v w) (hv : v.DistinctNames) :
    v.canon = w.canon := by
  induction h with
  | refl v => rfl
  | trans hvw _ ihv ihw => exact (ihv hv).trans (ihw (hvw.distinctNames hv))
  | item before after _ ih =>
    rw [distinctNames_array_iff, List.forall_mem_append, List.forall_mem_cons] at hv
    rw [canon_array, canon_array, List.map_append, List.map_append, List.map_cons, List.map_cons,
      ih hv.2.1]
  | @member v w before after name hvw ih =>
    rw [distinctNames_object_iff, List.forall_mem_append, List.forall_mem_cons] at hv
    have hmembers : canonMembers (before ++ (name, v) :: after) =
        canonMembers (before ++ (name, w) :: after) := by
      simp only [canonMembers_eq_map, definedMembers, List.filter_append, List.filter_cons,
        hvw.isUndefined_eq, List.map_append]
      split
      · rw [List.map_cons, List.map_cons, ih hv.2.2.1]
      · rfl
    rw [canon, canon, hmembers]
  | perm hp =>
    have hnames := nodup_definedMembers (distinctNames_object_iff.mp hv).1
    rw [canon_object, canon_object, Mapping.ofList_eq_of_perm hnames (hp.filter _)]
    rfl

/-! ### Equality -/

theorem isUndefined_eq_of_equal {v w : Value} (h : v.equal w = true) :
    v.isUndefined = w.isUndefined := by
  rw [isUndefined, isUndefined, kind_eq_of_equal h]

/-- Equal members that are defined are matched by defined members. -/
theorem Matched.definedMembers {ms ns : List (String × Value)}
    (h : Matched (fun v w => v.equal w = true) ms ns) :
    Matched (fun v w => v.equal w = true) (definedMembers ms) (Value.definedMembers ns) := by
  refine ⟨fun m hm => ?_, fun n hn => ?_⟩
  · obtain ⟨hmem, hm⟩ := mem_definedMembers.mp hm
    obtain ⟨w, hw, heq⟩ := h.left m hmem
    exact ⟨w, mem_definedMembers.mpr ⟨hw, (isUndefined_eq_of_equal heq).symm.trans hm⟩, heq⟩
  · obtain ⟨hmem, hn⟩ := mem_definedMembers.mp hn
    obtain ⟨v, hv, heq⟩ := h.right n hmem
    exact ⟨v, mem_definedMembers.mpr ⟨hv, (isUndefined_eq_of_equal heq).trans hn⟩, heq⟩

theorem map_canon_eq_iff {xs ys : List Value} :
    xs.map canon = ys.map canon ↔ List.Forall₂ (fun v w => v.canon = w.canon) xs ys := by
  rw [← List.forall₂_eq_eq_eq, List.forall₂_map_left_iff, List.forall₂_map_right_iff]

/-- Equal values without the negative zero have the same canonical form. -/
theorem canon_eq_of_equal {v w : Value} (hv : v.DistinctNames) (hw : w.DistinctNames)
    (zv : v.NegativeZeroFree) (zw : w.NegativeZeroFree) (h : v.equal w = true) :
    v.canon = w.canon := by
  induction v using Value.induction generalizing w with
  | array items ih =>
    cases w with
    | array ws =>
      rw [distinctNames_array_iff] at hv hw
      rw [negativeZeroFree_array_iff] at zv zw
      rw [equal_array_iff] at h
      rw [canon_array, canon_array, array.injEq, map_canon_eq_iff]
      refine forall₂_imp_mem h fun v hvm w hwm => ?_
      exact ih v hvm (hv v hvm) (hw w hwm) (zv v hvm) (zw w hwm)
    | _ => simp [equal] at h
  | object members ih =>
    cases w with
    | object ns =>
      obtain ⟨hm, hv⟩ := distinctNames_object_iff.mp hv
      obtain ⟨hn, hw⟩ := distinctNames_object_iff.mp hw
      rw [negativeZeroFree_object_iff] at zv zw
      rw [equal_object_iff hm hn] at h
      rw [canon_object_eq_iff_matched hm hn]
      refine h.definedMembers.imp_mem fun m hmm n hnm => ?_
      have hmm := (mem_definedMembers.mp hmm).1
      have hnm := (mem_definedMembers.mp hnm).1
      exact ih m hmm (hv m hmm) (hw n hnm) (zv m hmm) (zw n hnm)
    | _ => simp [equal] at h
  | float x =>
    cases w with
    | float y =>
      rw [negativeZeroFree_float_iff] at zv zw
      rw [Double.eq_of_equal h zv zw]
    | _ => simp [equal] at h
  | _ => cases w <;> simp_all [equal, canon]

/-- Values without undefined parts and without doubles are equal exactly when they have the same
canonical form. -/
theorem equal_iff_canon_eq {v w : Value} (hv : v.DistinctNames) (hw : w.DistinctNames)
    (fv : v.FloatFree) (fw : w.FloatFree) (uv : v.UndefinedFree) (uw : w.UndefinedFree) :
    v.equal w = true ↔ v.canon = w.canon := by
  refine ⟨canon_eq_of_equal hv hw (fv _) (fw _), fun h => ?_⟩
  induction v using Value.induction generalizing w with
  | undefined => exact absurd .refl uv
  | float x => exact absurd .refl (fv x)
  | array items ih =>
    cases w with
    | array ys =>
      rw [distinctNames_array_iff] at hv hw
      rw [floatFree_array_iff] at fv fw
      rw [undefinedFree_array_iff] at uv uw
      rw [canon_array, canon_array, array.injEq, map_canon_eq_iff] at h
      rw [equal_array_iff]
      refine forall₂_imp_mem h fun v hvm w hwm => ?_
      exact ih v hvm (hv v hvm) (hw w hwm) (fv v hvm) (fw w hwm) (uv v hvm) (uw w hwm)
    | undefined => exact absurd .refl uw
    | _ => simp [canon] at h
  | object members ih =>
    cases w with
    | object ns =>
      obtain ⟨hm, hv⟩ := distinctNames_object_iff.mp hv
      obtain ⟨hn, hw⟩ := distinctNames_object_iff.mp hw
      rw [canon_object_eq_iff_matched hm hn, uv.definedMembers_eq, uw.definedMembers_eq] at h
      rw [floatFree_object_iff] at fv fw
      rw [undefinedFree_object_iff] at uv uw
      rw [equal_object_iff hm hn]
      refine h.imp_mem fun m hmm n hnm => ?_
      exact ih m hmm (hv m hmm) (hw n hnm) (fv m hmm) (fw n hnm) (uv m hmm) (uw n hnm)
    | undefined => exact absurd .refl uw
    | _ => simp [canon] at h
  | _ =>
    cases w with
    | undefined => exact absurd .refl uw
    | _ => simp_all [equal, canon]

end Comprehension.Value
