import Comprehension.Proofs.Events
import Comprehension.Proofs.Written

/-!
# Walking keys

Where keys are walked, the entries are the distinct names of the source, and a key that is a
reference gives each name itself: its name is the only one that is bound, and it has no members to
follow.  An entry then has a key of its own, so that nothing is overwritten and no key is lost, and
can fail only in the value.

## Main definitions

* `Plan.WalksNames`: plans in which every entry is a name that is its own key.
* `Slot.size`: the number of members or items of a source.

## Main results

* `EntriesOf.nodup_names`: the names of a source are distinct.
* `Plan.WalksNames.fails_iff`, `Plan.WalksNames.produces_iff`: what an entry comes to.
* `Plan.WalksNames.not_overwrites`, `Plan.WalksNames.keys_perm`: a run over names.
* `evaluate_keeps_walked_names`: the outcome of a template that walks keys.
-/

namespace Comprehension

/-! ### The names of a source -/

/-- Different numbers have different decimal digits. -/
theorem toDigits_injective : Function.Injective (Nat.toDigits 10) := by
  intro m n h
  calc m = Nat.ofDigitChars 10 (Nat.toDigits 10 m) 0 := Nat.ofDigitChars_ten_toDigits.symm
    _ = Nat.ofDigitChars 10 (Nat.toDigits 10 n) 0 := by rw [h]
    _ = n := Nat.ofDigitChars_ten_toDigits

theorem Entries.nodup_positions (n : Nat) : (positions n).Nodup :=
  List.nodup_range.map fun _ _ h => toDigits_injective (String.ofList_injective h)

/-- The number of members or items that a source has. -/
def Slot.size : Slot → Nat
  | .value (.object ms) => ms.length
  | .value (.array vs) => vs.length
  | _ => 0

/-- The members of an object in a slot have distinct names. -/
def Slot.HasDistinctNames (x : Slot) : Prop :=
  ∀ ms, x = .value (.object ms) → (ms.map Prod.fst).Nodup

section Names

variable {x : Slot} {names : List String}

theorem EntriesOf.exists_keys {entries : Entries} (h : EntriesOf .keys x entries) :
    ∃ names, entries = .keys names := by
  cases h with
  | items hne => exact absurd rfl hne
  | names => exact ⟨_, rfl⟩
  | positions => exact ⟨_, rfl⟩

/-- The names that are walked are distinct. -/
theorem EntriesOf.nodup_names (h : EntriesOf .keys x (.keys names)) (hx : x.HasDistinctNames) :
    names.Nodup := by
  cases h with
  | names => exact hx _ rfl
  | positions => exact Entries.nodup_positions _

/-- There is a name for each member or item. -/
theorem EntriesOf.length_names (h : EntriesOf .keys x (.keys names)) : names.length = x.size := by
  cases h with
  | names => exact List.length_map _
  | positions => rw [List.length_map, List.length_range, Slot.size]

end Names

/-! ### Runs over names -/

/-- A function that rejects an entry stands in the slot of the operand. -/
theorem ProviderOf.exists_function {names : List String} {o : Operand} {q : Provider}
    (h : ProviderOf names o q) {e : Value} {err : EvalError} (he : q.provide e = .error err) :
    ∃ g message, o = .slot (.function g) ∧ g e = .error message ∧ err = .rejected message := by
  obtain ⟨g, message, rfl, hg, herr⟩ := Provider.exists_function he
  cases h with
  | function => exact ⟨g, message, rfl, hg, herr⟩

namespace Plan

/-- The entries are distinct names, and each of them is its own key. -/
structure WalksNames (p : Plan) (names : List String) : Prop where
  iteration : p.bindings.iteration = .keys
  entries : p.entries = .keys names
  key : ∀ name, p.key.provide (.string name) = .ok (.string name)
  nodup : names.Nodup

namespace WalksNames

variable {p : Plan} {names : List String} (h : p.WalksNames names)
include h

theorem not_cannotUnpack (e : Value) : ¬ p.CannotUnpack e := fun hu => hu.2.1 h.iteration

theorem toList_entries : p.entries.toList = names.map .string := by rw [h.entries, Entries.toList]

/-- A name fails only where it is rejected as the value. -/
theorem fails_iff {name : String} {err : EvalError} :
    p.Fails (.string name) err ↔ p.value.provide (.string name) = .error err := by
  have hkey := h.key name
  constructor
  · intro hf
    cases hf with
    | unpack hu => exact absurd hu (h.not_cannotUnpack _)
    | key _ he => exact absurd (hkey.symm.trans he) (by simp)
    | kind _ hk hkind =>
      obtain rfl := Except.ok.inj (hkey.symm.trans hk)
      exact absurd (.inl rfl) hkind
    | value _ _ _ hv => exact hv
  · intro hv
    obtain ⟨message, rfl⟩ := Provider.exists_rejected hv
    exact .value (h.not_cannotUnpack _) hkey (.inl rfl) hv

/-- A name produces its value under itself. -/
theorem produces_iff {name k : String} {v : Value} :
    p.Produces (.string name) k v ↔ k = name ∧ p.value.provide (.string name) = .ok v := by
  have hkey := h.key name
  constructor
  · rintro ⟨-, ⟨key, hk, htext⟩, hv⟩
    obtain rfl := Except.ok.inj (hkey.symm.trans hk)
    exact ⟨(Option.some.inj htext).symm, hv⟩
  · rintro ⟨rfl, hv⟩
    exact ⟨h.not_cannotUnpack _, ⟨_, hkey, rfl⟩, hv⟩

/-- The last entry that produces a name is the name. -/
theorem of_lastWrite {es : List Value} (hes : ∀ e ∈ es, e ∈ p.entries.toList) {k : String}
    {v : Value} (hlast : p.LastWrite es k v) :
    .string k ∈ es ∧ p.value.provide (.string k) = .ok v := by
  obtain ⟨before, e, after, rfl, he, -⟩ := hlast
  have hmem : e ∈ before ++ e :: after := List.mem_append_right _ List.mem_cons_self
  have hentry := hes e hmem
  rw [h.toList_entries] at hentry
  obtain ⟨name, -, rfl⟩ := List.mem_map.mp hentry
  obtain ⟨rfl, hv⟩ := h.produces_iff.mp he
  exact ⟨hmem, hv⟩

/-- No entry overwrites another. -/
theorem not_overwrites (i : Nat) (w : Value) : ¬ p.Overwrites p.entries.toList i w := by
  rintro ⟨e, k, v, hat, -, he, hlast⟩
  have hsub : ∀ e ∈ p.entries.toList.take i, e ∈ p.entries.toList :=
    fun e he => List.mem_of_mem_take he
  obtain ⟨hbefore, -⟩ := h.of_lastWrite hsub hlast
  -- The entry at the position is the same name as one before it.
  have hentry : e ∈ names.map Value.string := h.toList_entries ▸ List.mem_of_getElem? hat
  obtain ⟨name, -, rfl⟩ := List.mem_map.mp hentry
  obtain ⟨rfl, -⟩ := h.produces_iff.mp he
  have hdrop : Value.string k ∈ p.entries.toList.drop i := by
    refine List.mem_of_getElem? (i := 0) ?_
    rw [List.getElem?_drop, Nat.add_zero, hat]
  have hnodup : p.entries.toList.Nodup := by
    rw [h.toList_entries]
    exact h.nodup.map fun _ _ heq => Value.string.inj heq
  exact List.disjoint_take_drop hnodup le_rfl hbefore hdrop

/-- A run over names overwrites nothing, also where it fails. -/
theorem run_fst_eq_nil : p.run.1 = [] := by
  have hempty : (p.fill .empty []).2 = .ok .empty := rfl
  obtain ⟨positions, -, -, hvalues⟩ := exists_positions_of_fill hempty p.entries.toList
  rw [List.nil_append] at hvalues
  cases hrun : p.run.1 with
  | nil => rfl
  | cons w ws =>
    rw [Plan.run] at hrun
    rw [hrun] at hvalues
    obtain ⟨i, _, hover, -⟩ := List.forall₂_cons_right_iff.mp hvalues
    exact absurd hover (h.not_overwrites i w)

/-- A run over names fails only because the value rejects one of them. -/
theorem exists_rejected_of_run {err : EvalError} (hrun : p.run.2 = .error err) :
    ∃ name ∈ names, p.value.provide (.string name) = .error err := by
  obtain ⟨before, e, after, heq, -, he⟩ := fill_eq_error_iff.mp hrun
  have hmem : e ∈ p.entries.toList := heq ▸ List.mem_append_right _ List.mem_cons_self
  rw [h.toList_entries] at hmem
  obtain ⟨name, hname, rfl⟩ := List.mem_map.mp hmem
  exact ⟨name, hname, h.fails_iff.mp he⟩

section Result

variable {m : Mapping Value} (hm : p.run.2 = .ok m)
include hm

/-- Every name has its value. -/
theorem exists_get? {name : String} (hname : name ∈ names) :
    ∃ v, p.value.provide (.string name) = .ok v ∧ m.get? name = some v := by
  have hmem : Value.string name ∈ p.entries.toList := by
    rw [h.toList_entries]
    exact List.mem_map_of_mem hname
  obtain ⟨k, v, he⟩ := forall_not_fails_iff.mp (not_fails_of_fill_eq_ok hm _ hmem)
  obtain ⟨rfl, hv⟩ := h.produces_iff.mp he
  obtain ⟨w, hlast⟩ := exists_lastWrite_iff.mpr ⟨_, hmem, v, he⟩
  obtain ⟨-, hw⟩ := h.of_lastWrite (fun _ => id) hlast
  exact ⟨w, hw, (get?_eq_some_iff_lastWrite hm).mpr hlast⟩

/-- The keys are the names. -/
theorem keys_perm : m.keys.Perm names := by
  have hkeys : m.keys.Nodup := m.nodup_keys
  refine (List.perm_ext_iff_of_nodup hkeys h.nodup).mpr fun k => ?_
  rw [Mapping.mem_keys_iff]
  constructor
  · rintro ⟨v, hv⟩
    obtain ⟨hmem, -⟩ := h.of_lastWrite (fun _ => id) ((get?_eq_some_iff_lastWrite hm).mp hv)
    rw [h.toList_entries] at hmem
    obtain ⟨name, hname, heq⟩ := List.mem_map.mp hmem
    rwa [← Value.string.inj heq]
  · intro hk
    obtain ⟨v, -, hv⟩ := h.exists_get? hm hk
    exact ⟨v, hv⟩

end Result

end WalksNames

end Plan

/-! ### Templates that walk keys -/

section Template

variable {t : Template} {d : Derivation} {p : Plan} {r : Reference}

/-- Where keys are walked, a reference to the bound name gives the entry. -/
theorem Derivation.Valid.provide_key (hvalid : d.Valid) (hdenotes : d.Denotes p)
    (hkeys : d.iteration = .keys) (hkey : d.key = .reference r) (e : Value) :
    p.key.provide e = .ok e := by
  have hprovider := hdenotes.key
  have hnames : ¬ 1 < d.names.length := by rw [hvalid.names hkeys]; exact Nat.lt_irrefl 1
  have htail : r.tail = [] :=
    Reference.length_parts_eq_one_iff.mp (hvalid.path r (.inl hkey) hkeys)
  rw [hkey] at hprovider
  generalize p.key = q at hprovider
  cases hprovider with
  | field =>
    rw [Provider.provide, decide_eq_false hnames, htail]
    rfl

/-- A template that is read and walks keys under a reference walks the names of its source. -/
theorem Derivation.Derives.exists_walksNames (hd : d.Derives t.stream)
    (hp : Plan.ofTemplate t = .ok p) (hkeys : d.iteration = .keys) (hkey : d.key = .reference r)
    (hsource : d.source.HasDistinctNames) :
    ∃ names, EntriesOf .keys d.source (.keys names) ∧ p.WalksNames names := by
  obtain ⟨hvalid, hdenotes⟩ := hd.valid_and_denotes hp
  have hentries := hdenotes.entries
  rw [hkeys] at hentries
  obtain ⟨names, hnames⟩ := hentries.exists_keys
  rw [hnames] at hentries
  exact ⟨names, hentries, hdenotes.iteration.trans hkeys, hnames,
    fun name => hvalid.provide_key hdenotes hkeys hkey (.string name), hentries.nodup_names hsource⟩

/-- A template that is read and walks the keys of its source under a reference fails only because
the function in the slot of its value rejects a name, so that it has a result where the value is
none.  The result has a member for each member or item of the source, its keys are the names of the
object or the positions in the array, and the member of each is what the value provides for it.
Nothing is overwritten on the way. -/
theorem evaluate_keeps_walked_names (hd : d.Derives t.stream) (hp : Plan.ofTemplate t = .ok p)
    (hkeys : d.iteration = .keys) (hkey : d.key = .reference r)
    (hsource : d.source.HasDistinctNames) :
    ∃ names, EntriesOf .keys d.source (.keys names) ∧
      (∀ f, t.evaluate = .error f → ∃ g message, d.value = .slot (.function g) ∧
        (∃ name ∈ names, g (.string name) = .error message) ∧
        f = .evaluation (.rejected message)) ∧
      ((∀ g, d.value ≠ .slot (.function g)) → ∃ m, t.evaluate = .ok m) ∧
      (∀ m, t.evaluate = .ok m → m.keys.length = d.source.size ∧ m.keys.Perm names ∧
        ∀ name ∈ names, ∃ v, p.value.provide (.string name) = .ok v ∧ m.get? name = some v) ∧
      (∀ i v, ¬ p.Overwrites p.entries.toList i v) ∧
      t.run.events = [.parsed .keys p.bindings.names d.source.size] := by
  obtain ⟨names, hentries, hwalks⟩ := hd.exists_walksNames hp hkeys hkey hsource
  obtain ⟨-, hdenotes⟩ := hd.valid_and_denotes hp
  have hlength := hentries.length_names
  have hfails : ∀ f, t.evaluate = .error f → ∃ g message, d.value = .slot (.function g) ∧
      (∃ name ∈ names, g (.string name) = .error message) ∧
      f = .evaluation (.rejected message) := by
    intro f hf
    rw [evaluate_eq hp, except_mapError_eq_error_iff] at hf
    obtain ⟨err, hrun, rfl⟩ := hf
    obtain ⟨name, hname, hprovide⟩ := hwalks.exists_rejected_of_run hrun
    obtain ⟨g, message, hg, hmessage, rfl⟩ := hdenotes.value.exists_function hprovide
    exact ⟨g, message, hg, ⟨name, hname, hmessage⟩, rfl⟩
  refine ⟨names, hentries, hfails, fun hvalue => ?_, fun m hm => ?_, hwalks.not_overwrites, ?_⟩
  · refine exists_eq_ok_of_forall_ne_error fun f hf => ?_
    obtain ⟨g, _, hg, -⟩ := hfails f hf
    exact hvalue g hg
  · obtain ⟨p', hp', hrun⟩ := evaluate_eq_ok_iff.mp hm
    obtain rfl := Except.ok.inj (hp.symm.trans hp')
    have hperm := hwalks.keys_perm hrun
    exact ⟨hperm.length_eq.trans hlength, hperm, fun name hname => hwalks.exists_get? hrun hname⟩
  · simp only [Template.run, hp, hwalks.run_fst_eq_nil, List.map_nil, hwalks.iteration,
      hwalks.toList_entries, List.length_map, hlength]

/-- The positions `0` and `1` of two items are the keys, and a reference gives each to itself. -/
theorem evaluate_keeps_walked_names_of_positions :
    let d : Derivation := ⟨1, .reference ⟨"k", []⟩, .reference ⟨"k", []⟩, .keys, ["k"],
      .value (.array [.null, .undefined]), ['}']⟩
    ∃ m, d.template.evaluate = .ok m ∧ m.keys.Perm ["0", "1"] ∧
      m.get? "1" = some (.string "1") := by
  intro d
  have hname : isIdentifier "k".toList = true := by decide
  have hwritten : d.IsWellFormed := ⟨isWellFormed_of_name hname, isWellFormed_of_name hname,
    by simp [d], List.forall_mem_singleton.mpr hname, by simp [d], by simp [d]⟩
  let p : Plan := ⟨.field ⟨"k", []⟩ 0 false, .field ⟨"k", []⟩ 0 false,
    ⟨.keys, ["k"], fun _ => Nat.le_refl 1⟩, .keys ["0", "1"]⟩
  have hp : Plan.ofTemplate d.template = .ok p := (ofTemplate_eq_plan hwritten.derives).trans rfl
  have hsource : d.source.HasDistinctNames := fun ms h => by simp [d] at h
  obtain ⟨names, hentries, -, hsucceeds, hresult, -⟩ :=
    evaluate_keeps_walked_names hwritten.derives hp rfl rfl hsource
  obtain rfl : names = ["0", "1"] := by
    cases hentries
    rfl
  obtain ⟨m, hm⟩ := hsucceeds fun g h => by simp [d] at h
  obtain ⟨-, hperm, hvalues⟩ := hresult m hm
  obtain ⟨v, hv, hget⟩ := hvalues "1" (by decide)
  obtain rfl := Except.ok.inj hv
  exact ⟨m, hm, hperm, hget⟩

end Template

end Comprehension
