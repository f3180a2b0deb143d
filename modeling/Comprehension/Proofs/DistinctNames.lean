import Comprehension.Proofs.CommandLine.Slots
import Comprehension.Proofs.Json.Reading
import Comprehension.Proofs.KeyIteration

/-!
# Objects have distinct names

An object is a list of members, and setting a member never repeats a name.  The names are therefore
distinct in every object that is read from a JSON text, whichever pairs the text has, and in every
mapping.  An evaluation makes no other objects: paths lead to parts of the entries, so what it gives
has distinct names when the slots have, and the functions in them keep this.

## Main definitions

* `Json.Part.DistinctNames`: parts of a text that denote values without repeated names.
* `Slot.KeepsDistinctNames`: slots that bring no repeated names into an evaluation.

## Main results

* `Value.distinctNames_ofMembers`, `Value.distinctNames_ofMapping_iff`: objects that are built.
* `Json.distinctNames_of_read?`: values that are read.
* `distinctNames_of_evaluate`: mappings of templates.
* `CommandLine.Options.Fills.exists_walksNames`: names that are walked where slots are texts.
* `CommandLine.Options.distinctNames_of_mapping`: mappings of expressions.
-/

namespace Comprehension

/-! ### Objects that are built -/

namespace Value

theorem distinctNames_ofMembers {pairs : List (String × Value)}
    (h : ∀ p ∈ pairs, p.2.DistinctNames) : (ofMembers pairs).DistinctNames := by
  obtain ⟨ms, hms, hnames, hmem⟩ := exists_ofMembers_eq pairs
  rw [hms, distinctNames_object_iff]
  exact ⟨hnames, fun m hm => h m (hmem m hm)⟩

/-- The names of a mapping are distinct, so only its values matter. -/
theorem distinctNames_ofMapping_iff {m : Mapping Value} :
    (ofMapping m).DistinctNames ↔ ∀ k v, m.get? k = some v → v.DistinctNames := by
  rw [ofMapping, distinctNames_object_iff]
  constructor
  · rintro ⟨-, h⟩ k v hv
    exact h (k, v) (Mapping.get?_eq_some_iff.mp hv)
  · intro h
    exact ⟨Mapping.nodup_keys m, fun e he => h e.1 e.2 (Mapping.get?_eq_some_iff.mpr he)⟩

variable {v w : Value}

theorem DistinctNames.member? {name : String} (h : v.DistinctNames)
    (hw : v.member? name = some w) : w.DistinctNames := by
  cases v with
  | object members =>
    obtain ⟨hnames, hmembers⟩ := distinctNames_object_iff.mp h
    exact hmembers (name, w) ((lookup_eq_some_iff_mem hnames).mp hw)
  | _ => exact absurd hw (by simp [Value.member?])

theorem DistinctNames.item? {i : Nat} (h : v.DistinctNames) (hw : v.item? i = some w) :
    w.DistinctNames := by
  cases v with
  | array items => exact distinctNames_array_iff.mp h w (List.mem_of_getElem? hw)
  | _ => exact absurd hw (by simp [Value.item?])

theorem DistinctNames.follow? {path : List String} (h : v.DistinctNames)
    (hw : Provider.follow? v path = some w) : w.DistinctNames := by
  induction path generalizing v with
  | nil =>
    obtain rfl := Option.some.inj hw
    exact h
  | cons name path ih =>
    rw [Provider.follow?, List.foldlM_cons] at hw
    obtain ⟨x, hx, hw⟩ := Option.bind_eq_some_iff.mp hw
    exact ih (h.member? hx) hw

theorem distinctNames_getD_undefined {v? : Option Value}
    (h : ∀ v, v? = some v → v.DistinctNames) : (v?.getD .undefined).DistinctNames := by
  cases v? with
  | none => rintro members ⟨⟩
  | some v => exact h v rfl

end Value

/-! ### Values that are read -/

namespace Json

/-- What a part denotes has distinct names, unless these are the names of the members that are
still to become an object. -/
def Part.DistinctNames : Part → Prop
  | .value v => v.DistinctNames
  | .member m => m.2.DistinctNames
  | .items vs => ∀ v ∈ vs, v.DistinctNames
  | .members ms => ∀ m ∈ ms, m.2.DistinctNames

theorem Denotes.distinctNames {k : Nat} {cs : List Char} {p : Part} (h : Denotes k cs p) :
    p.DistinctNames := by
  induction h with
  | number _ hvalue =>
    rcases Numeral.value?_cases hvalue with ⟨n, rfl⟩ | ⟨x, rfl⟩
    · rintro members ⟨⟩
    · rintro members ⟨⟩
  | emptyArray => exact Value.distinctNames_array_iff.mpr (List.forall_mem_nil _)
  | array _ ih => exact Value.distinctNames_array_iff.mpr ih
  | emptyObject => exact Value.distinctNames_object_iff.mpr ⟨List.nodup_nil, List.forall_mem_nil _⟩
  | object _ ih => exact Value.distinctNames_ofMembers ih
  | member _ _ _ _ ih => exact ih
  | lastItem _ _ _ ih => exact List.forall_mem_singleton.mpr ih
  | moreItems _ _ _ _ ih ihs => exact List.forall_mem_cons.mpr ⟨ih, ihs⟩
  | lastMember _ _ _ ih => exact List.forall_mem_singleton.mpr ih
  | moreMembers _ _ _ _ ih ihs => exact List.forall_mem_cons.mpr ⟨ih, ihs⟩
  | _ => rintro members ⟨⟩

/-- A value that is read has distinct names, also where the text repeats a name. -/
theorem distinctNames_of_read? {text : String} {v : Value} (h : read? text = some v) :
    v.DistinctNames := by
  obtain ⟨-, hvalue, -⟩ := read?_eq_some_iff.mp h
  exact hvalue.distinctNames

end Json

/-! ### Evaluations -/

/-- A slot brings no repeated names into an evaluation: its value has none, or its function gives
none for entries without them. -/
inductive Slot.KeepsDistinctNames : Slot → Prop
  | value {v : Value} : v.DistinctNames → KeepsDistinctNames (.value v)
  | function {f : Value → Except String Value} :
      (∀ e v, e.DistinctNames → f e = .ok v → v.DistinctNames) → KeepsDistinctNames (.function f)

theorem Slot.KeepsDistinctNames.hasDistinctNames {x : Slot} (h : x.KeepsDistinctNames) :
    x.HasDistinctNames := by
  rintro ms rfl
  cases h with
  | value hv => exact (Value.distinctNames_object_iff.mp hv).1

theorem Template.mem_slots_of_mem_stream {t : Template} {x : Slot} (h : .slot x ∈ t.stream) :
    x ∈ t.slots := by
  have hsymbols (cs : List Char) : .slot x ∉ symbols cs := by simp [symbols]
  rcases List.mem_append.mp h with h | h
  · exact absurd h (hsymbols _)
  · obtain ⟨p, hp, h⟩ := List.mem_flatMap.mp h
    rcases List.mem_cons.mp h with h | h
    · obtain rfl := Symbol.slot.inj h
      exact List.mem_map_of_mem hp
    · exact absurd h (hsymbols _)

/-- The slots of a derivation are slots of its template. -/
theorem Derivation.Derives.mem_slots {t : Template} {d : Derivation} (h : d.Derives t.stream) :
    d.source ∈ t.slots ∧ ∀ x, d.value = .slot x → x ∈ t.slots := by
  generalize hstream : t.stream = stream at h
  cases h with
  | intro _ _ _ _ _ _ _ hvalue =>
    refine ⟨Template.mem_slots_of_mem_stream ?_, fun x hx => Template.mem_slots_of_mem_stream ?_⟩
    · rw [hstream]
      simp
    · rw [hx] at hvalue
      cases hvalue
      rw [hstream]
      simp

/-- The entries of a source have distinct names. -/
theorem EntriesOf.distinctNames {iteration : Iteration} {x : Slot} {entries : Entries}
    (h : EntriesOf iteration x entries) (hx : x.KeepsDistinctNames) :
    ∀ e ∈ entries.toList, e.DistinctNames := by
  have hnames (names : List String) : ∀ e ∈ (Entries.keys names).toList, e.DistinctNames := by
    intro e he
    obtain ⟨name, -, rfl⟩ := List.mem_map.mp he
    rintro members ⟨⟩
  cases h with
  | items =>
    cases hx with
    | value hv => exact Value.distinctNames_array_iff.mp hv
  | names => exact hnames _
  | positions => exact hnames _

/-- A provider gives values with distinct names for entries that have distinct names. -/
theorem ProviderOf.distinctNames {names : List String} {o : Operand} {q : Provider}
    (h : ProviderOf names o q) (ho : ∀ x, o = .slot x → x.KeepsDistinctNames) {e v : Value}
    (he : e.DistinctNames) (hv : q.provide e = .ok v) : v.DistinctNames := by
  cases h with
  | function f =>
    rw [Provider.provide, except_mapError_eq_ok_iff] at hv
    cases ho _ rfl with
    | function hf => exact hf e v he hv
  | constant w =>
    obtain rfl := Except.ok.inj hv
    cases ho _ rfl with
    | value hw => exact hw
  | @field r i _ _ =>
    rw [Provider.provide] at hv
    obtain rfl := Except.ok.inj hv
    -- The path starts from the entry or one of its items and leads to a part of it.
    refine Value.distinctNames_getD_undefined fun w hw => ?_
    obtain ⟨base, hbase, hw⟩ := Option.bind_eq_some_iff.mp hw
    suffices base.DistinctNames from this.follow? hw
    split at hbase
    · exact he.item? hbase
    · obtain rfl := Option.some.inj hbase
      exact he

/-- The mapping of a template has distinct names at any depth when its slots keep them. -/
theorem distinctNames_of_evaluate {t : Template} {m : Mapping Value}
    (h : ∀ x ∈ t.slots, x.KeepsDistinctNames) (hm : t.evaluate = .ok m) :
    (Value.ofMapping m).DistinctNames := by
  obtain ⟨p, hp, hrun⟩ := evaluate_eq_ok_iff.mp hm
  obtain ⟨d, hread, -, hdenotes⟩ := ofTemplate_eq_ok_iff_readsAs.mp hp
  obtain ⟨opening, closing, hderives⟩ := exists_derives_of_readsAs hread
  obtain ⟨hsource, hvalue⟩ := hderives.mem_slots
  rw [Value.distinctNames_ofMapping_iff]
  intro k v hv
  -- Each value of the mapping was provided for one of the entries.
  rcases (Plan.get?_of_fill_eq_ok hrun k v).mp hv with ⟨before, e, after, hentries, he, -⟩ | ⟨hv, -⟩
  · have hmem : e ∈ p.entries.toList := by
      rw [hentries]
      exact List.mem_append_right _ List.mem_cons_self
    have hentry := hdenotes.entries.distinctNames (h _ hsource) e hmem
    exact hdenotes.value.distinctNames (fun x hx => h x (hvalue x hx)) hentry he.value
  · exact absurd hv (by simp)

/-! ### Expressions -/

namespace CommandLine

theorem Denotes.keepsDistinctNames {text : String} {x : Slot} (h : Denotes text x) :
    x.KeepsDistinctNames := by
  obtain ⟨v, hv, rfl⟩ := h
  exact .value (Json.distinctNames_of_read? hv)

namespace Options

variable {o : Options}

/-- The slots that are filled with texts keep names distinct. -/
theorem Fills.keepsDistinctNames {t : Template} (h : o.Fills t) {x : Slot} (hx : x ∈ t.slots) :
    x.KeepsDistinctNames := by
  obtain ⟨i, hi, rfl⟩ := List.mem_iff_getElem.mp hx
  have hlength := h.slots.length_eq
  exact (h.slots.get (i := i) (by omega) hi).keepsDistinctNames

/-- Where the keys of a text are walked under a reference, no name comes twice. -/
theorem Fills.exists_walksNames {t : Template} (h : o.Fills t) {d : Derivation} {p : Plan}
    {r : Reference} (hd : d.Derives t.stream) (hp : Plan.ofTemplate t = .ok p)
    (hkeys : d.iteration = .keys) (hkey : d.key = .reference r) :
    ∃ names, EntriesOf .keys d.source (.keys names) ∧ p.WalksNames names :=
  hd.exists_walksNames hp hkeys hkey (h.keepsDistinctNames hd.mem_slots.1).hasDistinctNames

/-- The mapping of an expression has distinct names at any depth. -/
theorem distinctNames_of_mapping {m : Mapping Value} (h : o.mapping = .ok m) :
    (Value.ofMapping m).DistinctNames := by
  have hfault : ∀ e, ¬ o.SlotFault e := fun e he =>
    absurd (h.symm.trans he.mapping_eq_error) (by simp)
  obtain ⟨hinput, t, ht⟩ := exists_fills hfault
  rw [ht.mapping_eq hinput, except_mapError_eq_ok_iff] at h
  exact distinctNames_of_evaluate (fun _ => ht.keepsDistinctNames) h

end Options

end CommandLine

end Comprehension
