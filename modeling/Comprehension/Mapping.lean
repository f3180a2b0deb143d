/-!
# Mappings

A mapping holds its entries in ascending order of their keys, each key once, so two mappings are
equal when they agree on every key.  Keys are compared by code points.
-/

namespace Comprehension

variable {α : Type}

/-- A finite map from texts, as the list of its entries in ascending order of their keys. -/
structure Mapping (α : Type) where
  entries : List (String × α)
  ascending : entries.Pairwise fun a b => a.1 < b.1

namespace Mapping

/-- Ascending entries with the value at one key set. -/
def insertEntry (k : String) (a : α) : List (String × α) → List (String × α)
  | [] => [(k, a)]
  | e :: es =>
    if k < e.1 then (k, a) :: e :: es
    else if k = e.1 then (k, a) :: es
    else e :: insertEntry k a es

private theorem lt_of_not_lt {k k' : String} (h : ¬ k < k') (hne : k ≠ k') : k' < k :=
  Decidable.byContradiction fun hn =>
    hne (String.le_antisymm (String.not_lt.mp hn) (String.not_lt.mp h))

theorem mem_insertEntry {k : String} {a : α} {es : List (String × α)} {e : String × α}
    (h : e ∈ insertEntry k a es) : e = (k, a) ∨ e ∈ es := by
  induction es with
  | nil => exact Or.inl (List.mem_singleton.mp h)
  | cons x es ih =>
    rw [insertEntry] at h
    split at h
    · exact List.mem_cons.mp h
    · split at h
      · exact (List.mem_cons.mp h).imp_right (List.mem_cons_of_mem _)
      · rcases List.mem_cons.mp h with rfl | h
        · exact Or.inr List.mem_cons_self
        · exact (ih h).imp_right (List.mem_cons_of_mem _)

theorem ascending_insertEntry {k : String} {a : α} {es : List (String × α)}
    (h : es.Pairwise fun a b => a.1 < b.1) :
    (insertEntry k a es).Pairwise fun a b => a.1 < b.1 := by
  induction es with
  | nil => exact List.pairwise_singleton _ _
  | cons x es ih =>
    obtain ⟨hx, hes⟩ := List.pairwise_cons.mp h
    rw [insertEntry]
    split
    · rename_i hk
      refine List.pairwise_cons.mpr ⟨fun e he => ?_, h⟩
      rcases List.mem_cons.mp he with rfl | he
      · exact hk
      · exact String.lt_trans hk (hx e he)
    · split
      · rename_i hk
        exact List.pairwise_cons.mpr ⟨fun e he => hk ▸ hx e he, hes⟩
      · rename_i hlt hne
        refine List.pairwise_cons.mpr ⟨fun e he => ?_, ih hes⟩
        rcases mem_insertEntry he with rfl | he
        · exact lt_of_not_lt hlt hne
        · exact hx e he

/-- The mapping without entries. -/
def empty : Mapping α := ⟨[], List.Pairwise.nil⟩

/-- The mapping with the value at one key set. -/
def insert (m : Mapping α) (k : String) (a : α) : Mapping α :=
  ⟨insertEntry k a m.entries, ascending_insertEntry m.ascending⟩

/-- The value at a key. -/
def get? (m : Mapping α) (k : String) : Option α := m.entries.lookup k

/-- The keys in ascending order. -/
def keys (m : Mapping α) : List String := m.entries.map Prod.fst

/-- The mapping of a list of pairs, in which the last pair of a key counts. -/
def ofList (pairs : List (String × α)) : Mapping α :=
  pairs.foldl (fun m e => m.insert e.1 e.2) empty

@[simp] theorem get?_empty (k : String) : (empty : Mapping α).get? k = none := rfl

/-- The head of a list of pairs hides the later pairs of its key. -/
theorem lookup_cons_ite (e : String × α) (es : List (String × α)) (k : String) :
    (e :: es).lookup k = if k = e.1 then some e.2 else es.lookup k := by
  change (match k == e.1 with | true => some e.2 | false => es.lookup k) = _
  by_cases h : k = e.1
  · simp [h]
  · simp [h, beq_false_of_ne h]

private theorem lookup_eq_none_of_lt {k : String} {es : List (String × α)}
    (h : ∀ e ∈ es, k < e.1) : es.lookup k = none := by
  refine List.lookup_eq_none_iff.mpr fun e he => ?_
  have hne : k ≠ e.1 := fun hk => String.lt_irrefl k (by have := h e he; rwa [← hk] at this)
  simpa using hne

private theorem lookup_insertEntry {k q : String} {a : α} {es : List (String × α)}
    (h : es.Pairwise fun a b => a.1 < b.1) :
    (insertEntry k a es).lookup q = if q = k then some a else es.lookup q := by
  induction es with
  | nil => rw [insertEntry, lookup_cons_ite]
  | cons x es ih =>
    rw [insertEntry]
    split
    · rw [lookup_cons_ite]
    · split
      · rename_i hk
        by_cases hq : q = k <;> simp [lookup_cons_ite, ← hk, hq]
      · rename_i hlt hne
        have hne' : q = x.1 → q ≠ k := fun hx hk => hne (hk.symm.trans hx)
        by_cases hq : q = x.1
        · simp [lookup_cons_ite, hq, Ne.symm hne]
        · simp [lookup_cons_ite, hq, ih (List.pairwise_cons.mp h).2]

/-- A set key has its new value and the others keep theirs. -/
@[simp] theorem get?_insert (m : Mapping α) (k q : String) (a : α) :
    (m.insert k a).get? q = if q = k then some a else m.get? q :=
  lookup_insertEntry m.ascending

private theorem entries_ext {es fs : List (String × α)} (he : es.Pairwise fun a b => a.1 < b.1)
    (hf : fs.Pairwise fun a b => a.1 < b.1) (h : ∀ k, es.lookup k = fs.lookup k) : es = fs := by
  induction es generalizing fs with
  | nil =>
    cases fs with
    | nil => rfl
    | cons f fs => simpa [lookup_cons_ite] using h f.1
  | cons e es ih =>
    cases fs with
    | nil => simpa [lookup_cons_ite] using h e.1
    | cons f fs =>
      obtain ⟨hes, hes'⟩ := List.pairwise_cons.mp he
      obtain ⟨hfs, hfs'⟩ := List.pairwise_cons.mp hf
      have hkey : e.1 = f.1 := by
        refine String.le_antisymm (String.not_lt.mp fun hlt => ?_) (String.not_lt.mp fun hlt => ?_)
        · have hk := h f.1
          rw [lookup_cons_ite f, if_pos rfl, lookup_eq_none_of_lt] at hk
          · exact Option.some_ne_none _ hk.symm
          · intro x hx
            rcases List.mem_cons.mp hx with rfl | hx
            · exact hlt
            · exact String.lt_trans hlt (hes x hx)
        · have hk := h e.1
          rw [lookup_cons_ite e, if_pos rfl, lookup_eq_none_of_lt] at hk
          · exact Option.some_ne_none _ hk
          · intro x hx
            rcases List.mem_cons.mp hx with rfl | hx
            · exact hlt
            · exact String.lt_trans hlt (hfs x hx)
      have hval : e.2 = f.2 := by simpa [lookup_cons_ite, hkey] using h e.1
      have htail : es = fs := ih hes' hfs' fun k => by
        by_cases hk : k = e.1
        · rw [hk, lookup_eq_none_of_lt hes, hkey, lookup_eq_none_of_lt hfs]
        · simpa [lookup_cons_ite, hk, hkey ▸ hk] using h k
      rw [htail, Prod.ext hkey hval]

/-- Mappings that agree on every key are equal. -/
theorem ext_get? {m n : Mapping α} (h : ∀ k, m.get? k = n.get? k) : m = n := by
  obtain ⟨es, he⟩ := m
  obtain ⟨fs, hf⟩ := n
  obtain rfl : es = fs := entries_ext he hf h
  rfl

end Mapping

end Comprehension
