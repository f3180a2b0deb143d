import Comprehension.Value.Equality
import Comprehension.Proofs.Mapping
import Comprehension.Proofs.Value.Occurrence
import Mathlib.Data.List.Forall2
import Mathlib.Data.List.Perm.Subperm

/-!
# Equality as a relation between parts

Equality of arrays is equality item by item.  Equality of objects counts the members of both and
looks those of the first up in the second; where names are distinct, this says that every member of
either object has an equal member of its name in the other, which is the same in both directions.
From this view equality is symmetric and transitive, and reflexive except for values in which not a
number occurs.

## Main definitions

* `Value.Matched`: objects whose members are related by name.

## Main results

* `Value.equal_array_iff`, `Value.equal_object_iff`: equality as a relation between parts.
* `Value.equal_symm`, `Value.equal_trans`, `Value.equal_self_iff`: the laws of equality.
* `Value.kind_eq_of_equal`: values of different kinds are not equal.
-/

namespace Comprehension.Value

/-! ### Parts -/

section Parts

variable {R S : Value → Value → Prop}

/-- A relation item by item may use that its items belong to the lists. -/
theorem forall₂_imp_mem {xs ys : List Value} (h : List.Forall₂ R xs ys)
    (hRS : ∀ v ∈ xs, ∀ w ∈ ys, R v w → S v w) : List.Forall₂ S xs ys := by
  induction h with
  | nil => exact .nil
  | cons hvw _ ih =>
    refine .cons (hRS _ List.mem_cons_self _ List.mem_cons_self hvw) (ih fun v hv w hw => ?_)
    exact hRS v (List.mem_cons_of_mem _ hv) w (List.mem_cons_of_mem _ hw)

theorem forall₂_trans_mem {xs ys zs : List Value} (h : List.Forall₂ R xs ys)
    (h' : List.Forall₂ R ys zs) (hR : ∀ u ∈ xs, ∀ v w, R u v → R v w → R u w) :
    List.Forall₂ R xs zs := by
  induction h generalizing zs with
  | nil => exact h'
  | cons huv _ ih =>
    obtain _ | ⟨hvw, hrest⟩ := h'
    refine .cons (hR _ List.mem_cons_self _ _ huv hvw) (ih hrest fun u hu => ?_)
    exact hR u (List.mem_cons_of_mem _ hu)

/-- Every member of either list is related to a member of the other that has its name. -/
structure Matched (R : Value → Value → Prop) (ms ns : List (String × Value)) : Prop where
  left : ∀ m ∈ ms, ∃ w, (m.1, w) ∈ ns ∧ R m.2 w
  right : ∀ n ∈ ns, ∃ v, (n.1, v) ∈ ms ∧ R v n.2

namespace Matched

variable {ms ns : List (String × Value)}

theorem symm (h : Matched R ms ns) : Matched (fun w v => R v w) ns ms := ⟨h.right, h.left⟩

theorem imp_mem (h : Matched R ms ns) (hRS : ∀ m ∈ ms, ∀ n ∈ ns, R m.2 n.2 → S m.2 n.2) :
    Matched S ms ns := by
  refine ⟨fun m hm => ?_, fun n hn => ?_⟩
  · obtain ⟨w, hw, hR⟩ := h.left m hm
    exact ⟨w, hw, hRS m hm _ hw hR⟩
  · obtain ⟨v, hv, hR⟩ := h.right n hn
    exact ⟨v, hv, hRS _ hv n hn hR⟩

/-- The members of an object match those of every reordering. -/
theorem of_perm (hp : ms.Perm ns) (hR : ∀ m ∈ ms, R m.2 m.2) : Matched R ms ns :=
  ⟨fun m hm => ⟨m.2, hp.mem_iff.mp hm, hR m hm⟩,
    fun n hn => ⟨n.2, hp.mem_iff.mpr hn, hR n (hp.mem_iff.mpr hn)⟩⟩

theorem names_perm (h : Matched R ms ns) (hm : (ms.map Prod.fst).Nodup)
    (hn : (ns.map Prod.fst).Nodup) : (ms.map Prod.fst).Perm (ns.map Prod.fst) := by
  refine (List.perm_ext_iff_of_nodup hm hn).mpr fun name => ?_
  simp only [List.mem_map]
  constructor
  · rintro ⟨m, hmem, rfl⟩
    obtain ⟨w, hw, -⟩ := h.left m hmem
    exact ⟨_, hw, rfl⟩
  · rintro ⟨n, hmem, rfl⟩
    obtain ⟨v, hv, -⟩ := h.right n hmem
    exact ⟨_, hv, rfl⟩

/-- Members match themselves when each is related to itself. -/
theorem self_iff (hm : (ms.map Prod.fst).Nodup) : Matched R ms ms ↔ ∀ m ∈ ms, R m.2 m.2 := by
  refine ⟨fun h m hmem => ?_, of_perm (.refl ms)⟩
  obtain ⟨w, hw, hR⟩ := h.left m hmem
  obtain rfl : w = m.2 := congrArg Prod.snd (List.inj_on_of_nodup_map hm hw hmem rfl)
  exact hR

/-- Members match by the images of their values when they have the same images up to order. -/
theorem map_perm_iff {α : Type} (f : Value → α) (hm : (ms.map Prod.fst).Nodup)
    (hn : (ns.map Prod.fst).Nodup) :
    (ms.map fun m => (m.1, f m.2)).Perm (ns.map fun n => (n.1, f n.2)) ↔
      Matched (fun v w => f v = f w) ms ns := by
  have hkeys {ms : List (String × Value)} (h : (ms.map Prod.fst).Nodup) :
      (ms.map fun m => (m.1, f m.2)).Nodup := by
    refine List.Nodup.of_map Prod.fst ?_
    rw [List.map_map]
    exact h
  rw [List.perm_ext_iff_of_nodup (hkeys hm) (hkeys hn)]
  simp only [List.mem_map, Prod.forall, Prod.mk.injEq]
  constructor
  · intro h
    refine ⟨fun m hmem => ?_, fun n hmem => ?_⟩
    · obtain ⟨n, hmem', hname, heq⟩ := (h m.1 (f m.2)).mp ⟨m, hmem, rfl, rfl⟩
      exact ⟨n.2, hname ▸ hmem', heq.symm⟩
    · obtain ⟨m, hmem', hname, heq⟩ := (h n.1 (f n.2)).mpr ⟨n, hmem, rfl, rfl⟩
      exact ⟨m.2, hname ▸ hmem', heq⟩
  · rintro ⟨hleft, hright⟩ name a
    constructor
    · rintro ⟨m, hmem, rfl, rfl⟩
      obtain ⟨w, hw, heq⟩ := hleft m hmem
      exact ⟨_, hw, rfl, heq.symm⟩
    · rintro ⟨n, hmem, rfl, rfl⟩
      obtain ⟨v, hv, heq⟩ := hright n hmem
      exact ⟨_, hv, rfl, heq⟩

end Matched

end Parts

theorem equal_array_iff {xs ys : List Value} :
    (array xs).equal (array ys) = true ↔ List.Forall₂ (fun v w => v.equal w = true) xs ys := by
  rw [equal]
  induction xs generalizing ys with
  | nil => cases ys <;> simp [equalItems]
  | cons v vs ih =>
    cases ys with
    | nil => simp [equalItems]
    | cons w ws => rw [equalItems, Bool.and_eq_true, ih, List.forall₂_cons]

theorem equalMembers_iff {ms ns : List (String × Value)} :
    equalMembers ms ns = true ↔
      ∀ m ∈ ms, ∃ w, ns.lookup m.1 = some w ∧ m.2.equal w = true := by
  induction ms with
  | nil => simp [equalMembers]
  | cons m ms ih =>
    rw [equalMembers, Bool.and_eq_true, ih, List.forall_mem_cons]
    refine and_congr_left fun _ => ?_
    cases ns.lookup m.1 with
    | none => simp
    | some w => simp

/-- Objects with distinct names are equal when their members match by name and are equal. -/
theorem equal_object_iff {ms ns : List (String × Value)} (hm : (ms.map Prod.fst).Nodup)
    (hn : (ns.map Prod.fst).Nodup) :
    (object ms).equal (object ns) = true ↔ Matched (fun v w => v.equal w = true) ms ns := by
  simp only [equal, Bool.and_eq_true, beq_iff_eq, equalMembers_iff, lookup_eq_some_iff_mem hn]
  constructor
  · rintro ⟨hlength, hleft⟩
    -- The names of the first object are names of the second, which has no more of them.
    have hsubset : ms.map Prod.fst ⊆ ns.map Prod.fst := by
      intro name hname
      obtain ⟨m, hmem, rfl⟩ := List.mem_map.mp hname
      obtain ⟨w, hw, -⟩ := hleft m hmem
      exact List.mem_map.mpr ⟨_, hw, rfl⟩
    have hnames : (ms.map Prod.fst).Perm (ns.map Prod.fst) :=
      (hm.subperm hsubset).perm_of_length_le (by simp [hlength])
    refine ⟨hleft, fun n hmem => ?_⟩
    obtain ⟨m, hm', hname⟩ :=
      List.mem_map.mp (hnames.mem_iff.mpr (List.mem_map.mpr ⟨n, hmem, rfl⟩))
    obtain ⟨w, hw, heq⟩ := hleft m hm'
    rw [hname] at hw
    obtain rfl : w = n.2 := congrArg Prod.snd (List.inj_on_of_nodup_map hn hw hmem rfl)
    exact ⟨m.2, hname ▸ hm', heq⟩
  · intro h
    exact ⟨by simpa using (h.names_perm hm hn).length_eq, h.left⟩

/-- Values of different kinds are never equal. -/
theorem kind_eq_of_equal {v w : Value} (h : v.equal w = true) : v.kind = w.kind := by
  cases v <;> cases w <;> first | rfl | exact absurd h (by simp [equal])

/-! ### Laws -/

theorem equal_symm {v w : Value} (hv : v.DistinctNames) (hw : w.DistinctNames)
    (h : v.equal w = true) : w.equal v = true := by
  induction v using Value.induction generalizing w with
  | array items ih =>
    cases w with
    | array ws =>
      rw [distinctNames_array_iff] at hv hw
      rw [equal_array_iff] at h ⊢
      exact .flip (forall₂_imp_mem h fun v hvm w hwm => ih v hvm (hv v hvm) (hw w hwm))
    | _ => simp [equal] at h
  | object members ih =>
    cases w with
    | object ns =>
      obtain ⟨hm, hv⟩ := distinctNames_object_iff.mp hv
      obtain ⟨hn, hw⟩ := distinctNames_object_iff.mp hw
      rw [equal_object_iff hm hn] at h
      rw [equal_object_iff hn hm]
      exact (h.imp_mem fun m hmm n hnm => ih m hmm (hv m hmm) (hw n hnm)).symm
    | _ => simp [equal] at h
  | float x =>
    cases w with
    | float y =>
      rw [equal] at h ⊢
      exact Double.equal_comm.trans h
    | _ => simp [equal] at h
  | _ => cases w <;> simp_all [equal]

theorem equal_trans {u v w : Value} (huv : u.equal v = true) (hvw : v.equal w = true) :
    u.equal w = true := by
  induction u using Value.induction generalizing v w with
  | array us ih =>
    cases v with
    | array vs =>
      cases w with
      | array ws =>
        rw [equal_array_iff] at huv hvw ⊢
        exact forall₂_trans_mem huv hvw fun u hu v w => ih u hu
      | _ => simp [equal] at hvw
    | _ => simp [equal] at huv
  | object ls ih =>
    cases v with
    | object ms =>
      cases w with
      | object ns =>
        simp only [equal, Bool.and_eq_true, beq_iff_eq, equalMembers_iff] at huv hvw ⊢
        refine ⟨huv.1.trans hvw.1, fun l hl => ?_⟩
        obtain ⟨v, hv, hlv⟩ := huv.2 l hl
        obtain ⟨before, after, rfl, -⟩ := List.lookup_eq_some_iff.mp hv
        obtain ⟨w, hw, hvw⟩ := hvw.2 (l.1, v) (by simp)
        exact ⟨w, hw, ih l hl hlv hvw⟩
      | _ => simp [equal] at hvw
    | _ => simp [equal] at huv
  | float x =>
    cases v with
    | float y =>
      cases w with
      | float z => exact Double.equal_trans huv hvw
      | _ => simp [equal] at hvw
    | _ => simp [equal] at huv
  | _ =>
    -- The other values are equal only to themselves.
    cases v <;> simp only [equal, beq_iff_eq, Bool.false_eq_true] at huv
    first
      | exact hvw
      | exact huv ▸ hvw

/-- A value is equal to itself exactly when all doubles in it are numbers. -/
theorem equal_self_iff {v : Value} (hv : v.DistinctNames) : v.equal v = true ↔ v.NaNFree := by
  induction v using Value.induction with
  | array items ih =>
    rw [distinctNames_array_iff] at hv
    rw [equal_array_iff, List.forall₂_same, naNFree_array_iff]
    exact forall₂_congr fun v hmem => ih v hmem (hv v hmem)
  | object members ih =>
    obtain ⟨hm, hv⟩ := distinctNames_object_iff.mp hv
    rw [equal_object_iff hm hm, Matched.self_iff hm, naNFree_object_iff]
    exact forall₂_congr fun m hmem => ih m hmem (hv m hmem)
  | float x => rw [equal, Double.equal_self_iff, naNFree_float_iff]
  | _ =>
    refine iff_of_true (by simp [equal]) ?_
    rintro x - ⟨⟩

end Comprehension.Value
