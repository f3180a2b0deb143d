import Comprehension.Mapping
import Mathlib.Data.List.Nodup

/-!
# Mappings of lists of pairs

The mapping of a list of pairs depends only on the last pair of each key.  Where no key is repeated
it therefore depends only on which pairs there are, and its entries are those pairs in ascending
order of their keys.

## Main definitions

* `Mapping.map`: the values of a mapping replaced by their images.

## Main results

* `Mapping.get?_ofList`: the value at a key is that of the last pair.
* `Mapping.ofList_eq_iff_perm`, `Mapping.perm_ofList`: pairs without repeated keys.
* `Mapping.ofList_map`: values may be replaced before or after.
-/

namespace Comprehension

variable {α β : Type}

/-! ### Looking up pairs -/

/-- Where keys are distinct, a pair is found exactly when it is in the list. -/
theorem lookup_eq_some_iff_mem {es : List (String × α)} (h : (es.map Prod.fst).Nodup)
    {k : String} {a : α} : es.lookup k = some a ↔ (k, a) ∈ es := by
  induction es with
  | nil => simp
  | cons e es ih =>
    obtain ⟨he, hes⟩ := List.nodup_cons.mp h
    rw [Mapping.lookup_cons_ite, List.mem_cons]
    by_cases hk : k = e.1
    · subst hk
      have hnot : (e.1, a) ∉ es := fun hmem => he (List.mem_map.mpr ⟨_, hmem, rfl⟩)
      simp only [if_true, Option.some.injEq, hnot, or_false]
      exact ⟨fun h => h ▸ rfl, fun h => (congrArg Prod.snd h).symm⟩
    · have hne : (k, a) ≠ e := fun h => hk (congrArg Prod.fst h)
      simp only [if_neg hk, hne, false_or, ih hes]

theorem exists_lookup_eq_some_iff {es : List (String × α)} {k : String} :
    (∃ a, es.lookup k = some a) ↔ k ∈ es.map Prod.fst := by
  induction es with
  | nil => simp
  | cons e es ih =>
    rw [Mapping.lookup_cons_ite, List.map_cons, List.mem_cons]
    by_cases hk : k = e.1
    · simp [hk]
    · rw [if_neg hk, ih]
      simp [hk]

namespace Mapping

theorem nodup_keys (m : Mapping α) : (m.entries.map Prod.fst).Nodup := by
  refine List.pairwise_map.mpr (m.ascending.imp fun h heq => ?_)
  rw [heq] at h
  exact String.lt_irrefl _ h

theorem get?_eq_some_iff {m : Mapping α} {k : String} {a : α} :
    m.get? k = some a ↔ (k, a) ∈ m.entries :=
  lookup_eq_some_iff_mem m.nodup_keys

/-- The keys are those that have a value. -/
theorem mem_keys_iff {m : Mapping α} {k : String} : k ∈ m.keys ↔ ∃ a, m.get? k = some a :=
  exists_lookup_eq_some_iff.symm

/-- A mapping is determined by its entries. -/
theorem entries_inj {m n : Mapping α} : m.entries = n.entries ↔ m = n := by
  refine ⟨fun h => ext_get? fun k => ?_, fun h => h ▸ rfl⟩
  rw [get?, get?, h]

private theorem get?_foldl_insert (es : List (String × α)) (m : Mapping α) (k : String) :
    (es.foldl (fun m e => m.insert e.1 e.2) m).get? k = (es.reverse.lookup k).or (m.get? k) := by
  induction es generalizing m with
  | nil => rfl
  | cons e es ih =>
    rw [List.foldl_cons, ih, get?_insert, List.reverse_cons, List.lookup_append, lookup_cons_ite,
      List.lookup_nil]
    cases es.reverse.lookup k with
    | some a => rfl
    | none =>
      by_cases hk : k = e.1
      · simp [hk]
      · simp [hk]

/-- The value at a key is that of the last pair with the key. -/
theorem get?_ofList (es : List (String × α)) (k : String) :
    (ofList es).get? k = es.reverse.lookup k := by
  rw [ofList, get?_foldl_insert, get?_empty, Option.or_none]

theorem get?_ofList_eq_some_iff {es : List (String × α)} (h : (es.map Prod.fst).Nodup)
    {k : String} {a : α} : (ofList es).get? k = some a ↔ (k, a) ∈ es := by
  have hrev : (es.reverse.map Prod.fst).Nodup := by
    rw [List.map_reverse]
    exact List.nodup_reverse.mpr h
  rw [get?_ofList, lookup_eq_some_iff_mem hrev, List.mem_reverse]

/-- Every entry of the mapping of a list is one of its pairs. -/
theorem mem_of_mem_ofList {es : List (String × α)} {e : String × α}
    (h : e ∈ (ofList es).entries) : e ∈ es := by
  have hget : (ofList es).get? e.1 = some e.2 := get?_eq_some_iff.mpr h
  rw [get?_ofList, List.lookup_eq_some_iff] at hget
  obtain ⟨before, after, heq, -⟩ := hget
  refine List.mem_reverse.mp ?_
  rw [heq]
  exact List.mem_append_right _ List.mem_cons_self

/-! ### Pairs without repeated keys -/

/-- The order of pairs without repeated keys does not matter. -/
theorem ofList_eq_of_perm {es fs : List (String × α)} (h : (es.map Prod.fst).Nodup)
    (hp : es.Perm fs) : ofList es = ofList fs := by
  refine ext_get? fun k => Option.ext fun a => ?_
  have hf : (fs.map Prod.fst).Nodup := (hp.map Prod.fst).nodup_iff.mp h
  rw [get?_ofList_eq_some_iff h, get?_ofList_eq_some_iff hf, hp.mem_iff]

/-- The entries of the mapping of pairs without repeated keys are the pairs. -/
theorem perm_ofList {es : List (String × α)} (h : (es.map Prod.fst).Nodup) :
    (ofList es).entries.Perm es := by
  refine (List.perm_ext_iff_of_nodup (List.Nodup.of_map _ (nodup_keys _)) (.of_map _ h)).mpr ?_
  rintro ⟨k, a⟩
  rw [← get?_eq_some_iff, get?_ofList_eq_some_iff h]

/-- A mapping is that of its entries. -/
theorem ofList_entries (m : Mapping α) : ofList m.entries = m := by
  refine ext_get? fun k => Option.ext fun a => ?_
  rw [get?_ofList_eq_some_iff m.nodup_keys, get?_eq_some_iff]

/-- Pairs without repeated keys have the same mapping exactly when they are the same pairs. -/
theorem ofList_eq_iff_perm {es fs : List (String × α)} (he : (es.map Prod.fst).Nodup)
    (hf : (fs.map Prod.fst).Nodup) : ofList es = ofList fs ↔ es.Perm fs := by
  refine ⟨fun h => ?_, ofList_eq_of_perm he⟩
  have hes := perm_ofList he
  rw [h] at hes
  exact hes.symm.trans (perm_ofList hf)

/-! ### Replacing values -/

/-- The mapping with each value replaced by its image. -/
def map (f : α → β) (m : Mapping α) : Mapping β :=
  ⟨m.entries.map fun e => (e.1, f e.2), List.pairwise_map.mpr m.ascending⟩

@[simp] theorem entries_map (f : α → β) (m : Mapping α) :
    (m.map f).entries = m.entries.map fun e => (e.1, f e.2) := rfl

@[simp] theorem get?_map (f : α → β) (m : Mapping α) (k : String) :
    (m.map f).get? k = (m.get? k).map f := by
  rw [get?, get?, entries_map]
  induction m.entries with
  | nil => rfl
  | cons e es ih =>
    rw [List.map_cons, lookup_cons_ite, lookup_cons_ite]
    by_cases hk : k = e.1
    · simp only [if_pos hk, Option.map_some]
    · simp only [if_neg hk, ih]

private theorem insert_map (f : α → β) (m : Mapping α) (k : String) (a : α) :
    (m.map f).insert k (f a) = (m.insert k a).map f := by
  refine ext_get? fun q => ?_
  rw [get?_insert, get?_map, get?_map, get?_insert]
  split <;> rfl

/-- Values may be replaced before pairs are collected or after. -/
theorem ofList_map (f : α → β) (es : List (String × α)) :
    ofList (es.map fun e => (e.1, f e.2)) = (ofList es).map f := by
  have hfold : ∀ m : Mapping α, (es.map fun e => (e.1, f e.2)).foldl
      (fun m e => m.insert e.1 e.2) (m.map f) =
      (es.foldl (fun m e => m.insert e.1 e.2) m).map f := by
    induction es with
    | nil => exact fun m => rfl
    | cons e es ih =>
      intro m
      rw [List.map_cons, List.foldl_cons, List.foldl_cons, insert_map, ih]
  exact hfold empty

end Mapping

end Comprehension
