import Comprehension.Proofs.Json.CanonicalText

/-!
# The laws of equality

Equality of values is a partial equivalence: it is symmetric and transitive, and a value is equal to
itself exactly when every double in it is a number.  The order of members makes no difference, values
of different kinds are never equal, and equal values have the same JSON text, except that the text
shows the sign of a zero.

## Main results

* `Value.equal_of_reordered`: the order of members does not matter to equality.
* `Json.text_eq_of_equal`: equal values without the negative zero are written alike.
* `Value.equal_partial_equivalence`: the laws of equality.
-/

namespace Comprehension

namespace Value

theorem Reordered.naNFree {v w : Value} (h : Reordered v w) (hv : v.NaNFree) : w.NaNFree := by
  induction h with
  | refl v => exact hv
  | trans _ _ ihv ihw => exact ihw (ihv hv)
  | item before after _ ih =>
    simp only [naNFree_array_iff, List.forall_mem_append, List.forall_mem_cons] at hv ⊢
    exact ⟨hv.1, ih hv.2.1, hv.2.2⟩
  | member before after name _ ih =>
    simp only [naNFree_object_iff, List.forall_mem_append, List.forall_mem_cons] at hv ⊢
    exact ⟨hv.1, ih hv.2.1, hv.2.2⟩
  | perm hp =>
    rw [naNFree_object_iff] at hv ⊢
    exact fun m hm => hv m (hp.mem_iff.mpr hm)

/-- Members match when one of them is replaced by a related value. -/
theorem Matched.replace {R : Value → Value → Prop} {before after : List (String × Value)}
    {v w : Value} (name : String) (hvw : R v w) (hbefore : ∀ m ∈ before, R m.2 m.2)
    (hafter : ∀ m ∈ after, R m.2 m.2) :
    Matched R (before ++ (name, v) :: after) (before ++ (name, w) :: after) := by
  constructor <;> simp only [List.forall_mem_append, List.forall_mem_cons]
  · exact ⟨fun m hm => ⟨m.2, by simp [hm], hbefore m hm⟩, ⟨w, by simp, hvw⟩,
      fun m hm => ⟨m.2, by simp [hm], hafter m hm⟩⟩
  · exact ⟨fun m hm => ⟨m.2, by simp [hm], hbefore m hm⟩, ⟨v, by simp, hvw⟩,
      fun m hm => ⟨m.2, by simp [hm], hafter m hm⟩⟩

/-- Values that differ in the order of members are equal when all their doubles are numbers. -/
theorem equal_of_reordered {v w : Value} (h : Reordered v w) (hv : v.DistinctNames)
    (nv : v.NaNFree) : v.equal w = true := by
  induction h with
  | refl v => exact (equal_self_iff hv).mpr nv
  | trans huv _ ihv ihw =>
    exact equal_trans (ihv hv nv) (ihw (huv.distinctNames hv) (huv.naNFree nv))
  | @item v w before after _ ih =>
    rw [distinctNames_array_iff, List.forall_mem_append, List.forall_mem_cons] at hv
    rw [naNFree_array_iff, List.forall_mem_append, List.forall_mem_cons] at nv
    have hbefore : ∀ u ∈ before, u.equal u = true := fun u hu =>
      (equal_self_iff (hv.1 u hu)).mpr (nv.1 u hu)
    have hafter : ∀ u ∈ after, u.equal u = true := fun u hu =>
      (equal_self_iff (hv.2.2 u hu)).mpr (nv.2.2 u hu)
    rw [equal_array_iff]
    exact List.rel_append (List.forall₂_same.mpr hbefore)
      (.cons (ih hv.2.1 nv.2.1) (List.forall₂_same.mpr hafter))
  | @member v w before after name hvw ih =>
    have hw := (Reordered.member before after name hvw).distinctNames hv
    rw [distinctNames_object_iff] at hv hw
    rw [naNFree_object_iff, List.forall_mem_append, List.forall_mem_cons] at nv
    rw [equal_object_iff hv.1 hw.1]
    rw [List.forall_mem_append, List.forall_mem_cons] at hv
    refine .replace name (ih hv.2.2.1 nv.2.1) (fun m hm => ?_) fun m hm => ?_
    · exact (equal_self_iff (hv.2.1 m hm)).mpr (nv.1 m hm)
    · exact (equal_self_iff (hv.2.2.2 m hm)).mpr (nv.2.2 m hm)
  | perm hp =>
    have hw := (Reordered.perm hp).distinctNames hv
    rw [distinctNames_object_iff] at hv hw
    rw [naNFree_object_iff] at nv
    rw [equal_object_iff hv.1 hw.1]
    exact .of_perm hp fun m hmem => (equal_self_iff (hv.2 m hmem)).mpr (nv m hmem)

end Value

/-- Equal values without the negative zero are written alike. -/
theorem Json.text_eq_of_equal (layout : Layout) {v w : Value} (hv : v.DistinctNames)
    (hw : w.DistinctNames) (zv : v.NegativeZeroFree) (zw : w.NegativeZeroFree)
    (h : v.equal w = true) : layout.text v = layout.text w := by
  rw [Layout.text, Layout.text, ← Layout.written_canon, Value.canon_eq_of_equal hv hw zv zw h,
    Layout.written_canon]

namespace Value

/-- Equality is symmetric and transitive, and reflexive exactly on the values whose doubles are all
numbers.  Such a value equals every reordering of its members, at any depth.  Values of different
kinds are never equal, and equal values are written alike unless the negative zero occurs in one of
them. -/
theorem equal_partial_equivalence :
    (∀ v w : Value, v.DistinctNames → w.DistinctNames → v.equal w = true → w.equal v = true) ∧
    (∀ u v w : Value, u.equal v = true → v.equal w = true → u.equal w = true) ∧
    (∀ v : Value, v.DistinctNames → (v.equal v = true ↔ v.NaNFree)) ∧
    (∀ v w : Value, v.DistinctNames → v.NaNFree → v.Reordered w → v.equal w = true) ∧
    (∀ v w : Value, v.kind ≠ w.kind → v.equal w = false) ∧
    ∀ (layout : Json.Layout) (v w : Value), v.DistinctNames → w.DistinctNames →
      v.NegativeZeroFree → w.NegativeZeroFree → v.equal w = true →
      layout.text v = layout.text w := by
  refine ⟨fun v w => equal_symm, fun u v w => equal_trans, fun v => equal_self_iff,
    fun v w hv nv h => equal_of_reordered h hv nv, fun v w hkind => ?_,
    fun layout v w => Json.text_eq_of_equal layout⟩
  rw [← Bool.not_eq_true]
  exact fun h => hkind (kind_eq_of_equal h)

/-- Both zeros are equal, and members of a nested object may stand in either order. -/
theorem equal_partial_equivalence_of_zeros :
    let one : Double := ⟨0x3FF0000000000000⟩
    let v : Value := .array [.object [("b", .float one), ("a", .undefined)]]
    let w : Value := .array [.object [("a", .undefined), ("b", .float one)]]
    let zero : Value := .float (.ofMagnitude false 0)
    let minusZero : Value := .float .negativeZero
    (v.DistinctNames ∧ v.NaNFree ∧ v.Reordered w ∧ v.equal w = true ∧ w.equal v = true ∧
      v.equal v = true) ∧
    (zero.equal minusZero = true ∧ minusZero.equal zero = true ∧ zero.equal zero = true) ∧
    ((integer 1).equal (float one) = false ∧ null.equal undefined = false) ∧
    (v.NegativeZeroFree ∧ w.NegativeZeroFree ∧
      Json.Layout.compact.text v = Json.Layout.compact.text w) := by
  intro one v w zero minusZero
  obtain ⟨hsymm, htrans, hself, hreordered, hkinds, htext⟩ := equal_partial_equivalence
  have hv : v.DistinctNames := by
    simp only [v, distinctNames_object_iff, distinctNames_array_iff, List.forall_mem_cons]
    refine ⟨⟨by decide, ?_, ?_, List.forall_mem_nil _⟩, List.forall_mem_nil _⟩ <;> rintro _ ⟨⟩
  have hvw : v.Reordered w := .item [] [] (.perm (.swap _ _ _))
  have hw := hvw.distinctNames hv
  have nv : v.NaNFree := by
    simp only [v, naNFree_object_iff, naNFree_array_iff, List.forall_mem_cons, naNFree_float_iff]
    refine ⟨⟨rfl, ?_, List.forall_mem_nil _⟩, List.forall_mem_nil _⟩
    rintro _ _ ⟨⟩
  have zv : v.NegativeZeroFree := by
    simp only [v, negativeZeroFree_object_iff, negativeZeroFree_array_iff, List.forall_mem_cons,
      negativeZeroFree_float_iff]
    refine ⟨⟨by decide, ?_, List.forall_mem_nil _⟩, List.forall_mem_nil _⟩
    rintro ⟨⟩
  have zw : w.NegativeZeroFree := by
    simp only [w, negativeZeroFree_object_iff, negativeZeroFree_array_iff, List.forall_mem_cons,
      negativeZeroFree_float_iff]
    refine ⟨⟨?_, by decide, List.forall_mem_nil _⟩, List.forall_mem_nil _⟩
    rintro ⟨⟩
  have hequal := hreordered v w hv nv hvw
  have hzeros : zero.equal minusZero = true := by decide
  have hfloat (x : Double) : (float x).DistinctNames := by rintro _ ⟨⟩
  have hzeros' : minusZero.equal zero = true :=
    hsymm zero minusZero (hfloat _) (hfloat _) hzeros
  exact ⟨⟨hv, nv, hvw, hequal, hsymm v w hv hw hequal, (hself v hv).mpr nv⟩,
    ⟨hzeros, hzeros', htrans zero minusZero zero hzeros hzeros'⟩,
    ⟨hkinds _ _ (by decide), hkinds _ _ (by decide)⟩,
    zv, zw, htext .compact v w hv hw zv zw hequal⟩

end Value

end Comprehension
