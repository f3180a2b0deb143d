import Comprehension.Proofs.Agreement
import Comprehension.Proofs.Evaluation
import Comprehension.Proofs.Written
import Mathlib.Logic.Equiv.Basic

/-!
# Bound names are only names

Renaming the names of a clause and the bound names of its references, by an injective map of
identifiers, does not change what a comprehension evaluates to.  No identifier is reserved, so that
keywords may be renamed and may be new names.  The error of a comprehension that fails may mention
names, but stays of the same kind.  The implicit name is a name too: `over` is short for
`for it of`.

Both facts are instances of one: the plans of two derivations that differ in their names and in the
words of their clauses are interchangeable, since a plan finds the value of a name by its position.

## Main definitions

* `Failure.kind`: the kind of an error, without the texts in it.
* `IsRenaming`, `Derivation.rename`: maps of identifiers and renamed derivations.
* `Plan.Interchangeable`: plans that provide the same for every entry.

## Main results

* `Derivation.Renamed.plan_agree`, `Plan.Interchangeable.run_agree`.
* `evaluate_agree_of_rename`: the outcome of an evaluation does not depend on the names.
-/

namespace Comprehension

/-! ### Kinds of errors -/

/-- The kinds of errors. -/
inductive FailureKind
  | missing (half : Half)
  | invalidReference (half : Half)
  | missingColon
  | invalidIteration
  | severalKeyNames
  | invalidSource
  | unknownName
  | keyTraversal
  | trailingInput
  | segmentMismatch
  | cannotUnpack
  | invalidKey
  | rejected
  deriving DecidableEq

def ParseError.kind : ParseError → FailureKind
  | missing half => .missing half
  | invalidReference half _ => .invalidReference half
  | missingColon _ => .missingColon
  | invalidIteration _ => .invalidIteration
  | severalKeyNames _ => .severalKeyNames
  | invalidSource _ _ => .invalidSource
  | unknownName _ _ => .unknownName
  | keyTraversal _ => .keyTraversal
  | trailingText _ => .trailingInput
  | extraSlot _ => .trailingInput
  | segmentMismatch _ _ => .segmentMismatch

def EvalError.kind : EvalError → FailureKind
  | cannotUnpack _ _ => .cannotUnpack
  | invalidKey _ => .invalidKey
  | rejected _ => .rejected

/-- The kind of an error, without the texts in it. -/
def Failure.kind : Failure → FailureKind
  | parse e => e.kind
  | evaluation e => e.kind

/-! ### Renaming -/

/-- An injective map from identifiers to identifiers. -/
structure IsRenaming (s : String → String) : Prop where
  identifier : ∀ n, isIdentifier n.toList = true → isIdentifier (s n).toList = true
  injective : ∀ m n, isIdentifier m.toList = true → isIdentifier n.toList = true →
    s m = s n → m = n

/-- A reference with its bound name renamed. -/
def Reference.rename (s : String → String) (r : Reference) : Reference := ⟨s r.head, r.tail⟩

/-- An operand with its bound name renamed.  Slots have no names. -/
def Operand.rename (s : String → String) : Operand → Operand
  | .reference r => .reference (r.rename s)
  | .slot x => .slot x

/-- A derivation with its declared names and the bound names of its references renamed. -/
def Derivation.rename (s : String → String) (d : Derivation) : Derivation :=
  { d with key := d.key.rename s, value := d.value.rename s, names := d.names.map s }

/-- A name is found where it was after all names have been renamed, unless it is confused with
another one. -/
theorem lastPosition?_map {s : String → String} {name : String} {ns : List String}
    (h : ∀ n ∈ ns, s n = s name → n = name) :
    lastPosition? (s name) (ns.map s) = lastPosition? name ns := by
  induction ns with
  | nil => rfl
  | cons n ns ih =>
    obtain ⟨hn, hns⟩ := List.forall_mem_cons.mp h
    have heq : s n = s name ↔ n = name := ⟨hn, fun hname => congrArg s hname⟩
    simp only [List.map_cons, lastPosition?, ih hns, heq]

/-- The second derivation has the names of the first renamed, and walks its source in the same
way. -/
structure Derivation.Renamed (s : String → String) (d e : Derivation) : Prop where
  key : e.key = d.key.rename s
  value : e.value = d.value.rename s
  names : e.names = d.names.map s
  walks : e.iteration.walksItems = d.iteration.walksItems
  source : e.source = d.source
  /-- No name of the clause is confused with the bound name of a reference. -/
  apart : ∀ r, d.key = .reference r ∨ d.value = .reference r → ∀ n ∈ d.names, s n = s r.head →
    n = r.head

/-! ### Interchangeable plans -/

/-- Plans that unpack the same entries and provide the same keys and values for them. -/
structure Plan.Interchangeable (p q : Plan) : Prop where
  unpacks : p.bindings.unpacks = q.bindings.unpacks
  key : ∀ e, p.key.provide e = q.key.provide e
  value : ∀ e, p.value.provide e = q.value.provide e
  entries : p.entries = q.entries

namespace Plan.Interchangeable

variable {p q : Plan}

/-- Interchangeable plans make the same of an entry. -/
theorem entry_agree (h : p.Interchangeable q) (e : Value) :
    Agree (fun f g => f.kind = g.kind) Eq (p.entry e) (q.entry e) := by
  rw [entry, entry, h.unpacks]
  cases q.bindings.unpacks && !e.isArray with
  | true => exact .error rfl
  | false =>
    simp only [Bool.false_eq_true, if_false, h.key, h.value]
    exact .refl (fun err => Eq.refl err.kind) Eq.refl _

/-- Interchangeable plans make the same of any number of entries. -/
theorem fill_agree (h : p.Interchangeable q) (m : Mapping Value) (es : List Value) :
    Agree (fun f g => f.kind = g.kind) Eq (p.fill m es).2 (q.fill m es).2 := by
  induction es generalizing m with
  | nil => exact .ok rfl
  | cons e es ih =>
    have he := h.entry_agree e
    rw [fill, fill]
    generalize p.entry e = x, q.entry e = y at he
    cases he with
    | error hkind => exact .error hkind
    | ok heq =>
      subst heq
      exact ih _

theorem run_agree (h : p.Interchangeable q) :
    Agree (fun f g => f.kind = g.kind) Eq p.run.2 q.run.2 := by
  rw [run, run, h.entries]
  exact h.fill_agree _ _

end Plan.Interchangeable

/-- Templates whose plans are interchangeable have the same mapping or errors of the same kind. -/
theorem evaluate_agree {t u : Template}
    (h : Agree (fun f g => f.kind = g.kind) Plan.Interchangeable (Plan.ofTemplate t)
      (Plan.ofTemplate u)) :
    Agree (fun f g => f.kind = g.kind) Eq t.evaluate u.evaluate := by
  rw [evaluate_eq_bind, evaluate_eq_bind]
  refine Agree.bind (h.mapError fun _ _ hkind => hkind) fun p q hpq => ?_
  exact hpq.run_agree.mapError fun _ _ hkind => hkind

/-! ### Renamed derivations have interchangeable plans -/

/-- The second bindings have the names of the first renamed, and walk a source in the same way. -/
structure Bindings.Renamed (s : String → String) (b b' : Bindings) : Prop where
  names : b'.names = b.names.map s
  walks : b'.iteration.walksItems = b.iteration.walksItems

theorem Iteration.eq_keys_iff_of_walksItems {i j : Iteration} (h : j.walksItems = i.walksItems) :
    j = .keys ↔ i = .keys := by
  rw [← walksItems_eq_false_iff, ← walksItems_eq_false_iff, h]

namespace Bindings.Renamed

variable {s : String → String} {b b' : Bindings}

theorem destructures_eq (h : b.Renamed s b') : b'.destructures = b.destructures := by
  rw [destructures, destructures, h.names, List.length_map]

theorem unpacks_eq (h : b.Renamed s b') : b'.unpacks = b.unpacks := by
  rw [unpacks, unpacks, h.destructures_eq, h.walks]

/-- A renamed operand provides the same under renamed names. -/
theorem bind_agree (h : b.Renamed s b') {o : Operand}
    (hapart : ∀ r, o = .reference r → ∀ n ∈ b.names, s n = s r.head → n = r.head) :
    Agree (fun e e' => e.kind = e'.kind) (fun p q => ∀ e, p.provide e = q.provide e)
      (Provider.bind b o) (Provider.bind b' (o.rename s)) := by
  cases o with
  | slot x => cases x <;> exact .ok fun _ => rfl
  | reference r =>
    have hposition : b'.position? (s r.head) = b.position? r.head := by
      rw [position?, position?, h.names, lastPosition?_map (hapart r rfl)]
    have hkeys := Iteration.eq_keys_iff_of_walksItems h.walks
    simp only [Operand.rename, Provider.bind, Reference.rename, hposition, hkeys,
      h.destructures_eq]
    cases b.position? r.head with
    | none => exact .error rfl
    | some i =>
      simp only
      split
      · exact .error rfl
      · exact .ok fun _ => rfl

end Bindings.Renamed

/-- The entries of a source depend on the iteration only through what it walks. -/
theorem Entries.ofSlot_agree {i j : Iteration} (h : j.walksItems = i.walksItems) (x : Slot) :
    Agree (fun e e' => e.kind = e'.kind) Eq (Entries.ofSlot i x) (Entries.ofSlot j x) := by
  cases x with
  | function f => exact .error rfl
  | value v =>
    simp only [Entries.ofSlot, Entries.ofValue, h]
    split
    · exact .ok rfl
    · exact .ok rfl
    · exact .ok rfl
    · exact .error rfl

namespace Derivation

variable {s : String → String} {d e : Derivation}

theorem Renamed.ofNames_agree (h : d.Renamed s e) :
    Agree (fun e e' => e.kind = e'.kind) (fun b b' => b.Renamed s b' ∧ b.names = d.names)
      (Bindings.ofNames d.iteration d.names) (Bindings.ofNames e.iteration e.names) := by
  have hkeys := Iteration.eq_keys_iff_of_walksItems h.walks
  have hiff : (e.iteration = .keys → e.names.length ≤ 1) ↔
      (d.iteration = .keys → d.names.length ≤ 1) := by
    rw [hkeys, h.names, List.length_map]
  rw [Bindings.ofNames, Bindings.ofNames]
  by_cases hd : d.iteration = .keys → d.names.length ≤ 1
  · rw [dif_pos hd, dif_pos (hiff.mpr hd)]
    exact .ok ⟨⟨h.names, h.walks⟩, rfl⟩
  · rw [dif_neg hd, dif_neg fun he => hd (hiff.mp he)]
    exact .error rfl

/-- Renamed derivations are refused for reasons of the same kind or have interchangeable plans. -/
theorem Renamed.plan_agree (h : d.Renamed s e) :
    Agree (fun e e' => e.kind = e'.kind) Plan.Interchangeable d.plan e.plan := by
  have hnullish : e.key.isNullish = d.key.isNullish := by
    rw [h.key]
    cases d.key <;> rfl
  rw [plan, plan, hnullish, h.key, h.value, h.source]
  cases d.key.isNullish with
  | true => exact .error rfl
  | false =>
    refine h.ofNames_agree.bind fun b b' hbindings => ?_
    obtain ⟨hb, hnames⟩ := hbindings
    have hapart := fun r hr => hnames.symm ▸ h.apart r hr
    refine (Entries.ofSlot_agree hb.walks d.source).bind fun es es' hes => ?_
    refine (hb.bind_agree fun r hr => hapart r (.inl hr)).bind fun key key' hkey => ?_
    refine (hb.bind_agree fun r hr => hapart r (.inr hr)).bind fun value value' hvalue => ?_
    exact .ok ⟨hb.unpacks_eq.symm, hkey, hvalue, hes⟩

/-- The outcome of a derived template changes only in the texts of an error when names are
replaced. -/
theorem Renamed.evaluate_agree (h : d.Renamed s e) {t u : Template} (ht : d.Derives t.stream)
    (hu : e.Derives u.stream) :
    Agree (fun f g => f.kind = g.kind) Eq t.evaluate u.evaluate := by
  refine Comprehension.evaluate_agree ?_
  rw [ofTemplate_eq_plan ht, ofTemplate_eq_plan hu]
  exact h.plan_agree

/-- The derivations have texts, and any two templates that they derive have the same mapping or
errors of the same kind. -/
structure Equivalent (d e : Derivation) : Prop where
  derives_left : d.Derives d.template.stream
  derives_right : e.Derives e.template.stream
  agree : ∀ t u : Template, d.Derives t.stream → e.Derives u.stream →
    Agree (fun f g => f.kind = g.kind) Eq t.evaluate u.evaluate

theorem Renamed.equivalent (h : d.Renamed s e) (hd : d.IsWellFormed) (he : e.IsWellFormed) :
    d.Equivalent e :=
  ⟨hd.derives, he.derives, fun _ _ ht hu => h.evaluate_agree ht hu⟩

/-! ### The names of a clause -/

theorem IsWellFormed.isIdentifier_head (hd : d.IsWellFormed) {r : Reference}
    (hr : d.key = .reference r ∨ d.value = .reference r) : isIdentifier r.head.toList = true := by
  rcases hr with hr | hr
  · exact hd.key r hr _ List.mem_cons_self
  · exact hd.value r hr _ List.mem_cons_self

theorem renamed_rename (hs : IsRenaming s) (hd : d.IsWellFormed) : d.Renamed s (d.rename s) :=
  ⟨rfl, rfl, rfl, rfl, rfl, fun r hr n hn =>
    hs.injective n r.head (hd.names n hn) (hd.isIdentifier_head hr)⟩

private theorem isWellFormed_of_rename (hs : IsRenaming s) {o : Operand}
    (ho : ∀ r, o = .reference r → r.IsWellFormed) (r : Reference)
    (hr : o.rename s = .reference r) : r.IsWellFormed := by
  cases o with
  | slot x => exact absurd hr (by simp [Operand.rename])
  | reference r' =>
    obtain rfl := Operand.reference.inj hr
    intro part hpart
    rcases List.mem_cons.mp hpart with rfl | hpart
    · exact hs.identifier _ (ho r' rfl _ List.mem_cons_self)
    · exact ho r' rfl part (List.mem_cons_of_mem _ hpart)

theorem IsWellFormed.rename (hs : IsRenaming s) (hd : d.IsWellFormed)
    (hi : d.iteration ≠ .implicit) : (d.rename s).IsWellFormed where
  key := isWellFormed_of_rename hs hd.key
  value := isWellFormed_of_rename hs hd.value
  ne_nil := by simpa [Derivation.rename] using hd.ne_nil
  names := fun n hn => by
    obtain ⟨m, hm, rfl⟩ := List.mem_map.mp hn
    exact hs.identifier m (hd.names m hm)
  implicit := fun h => absurd h hi
  closing := hd.closing

/-- A derivation with the names of its clause written out. -/
def explicit (d : Derivation) : Derivation := { d with iteration := .each }

theorem renamed_explicit (hi : d.iteration = .implicit) : d.Renamed id d.explicit where
  key := by cases hkey : d.key <;> simp [explicit, hkey, Operand.rename, Reference.rename]
  value := by cases hvalue : d.value <;> simp [explicit, hvalue, Operand.rename, Reference.rename]
  names := (List.map_id d.names).symm
  walks := by
    rw [hi]
    rfl
  source := rfl
  apart := fun _ _ _ _ h => h

end Derivation

/-- An injective map of identifiers, keywords included, may be applied to the names of a `for` clause
and to the bound names of the references without changing the outcome.  And `over` has the outcome
of `for it of`. -/
theorem evaluate_agree_of_rename :
    (∀ (s : String → String) (d : Derivation), IsRenaming s → d.IsWellFormed →
      d.iteration ≠ .implicit → d.Equivalent (d.rename s)) ∧
    ∀ d : Derivation, d.IsWellFormed → d.iteration = .implicit → d.Equivalent d.explicit := by
  constructor
  · intro s d hs hd hi
    exact (Derivation.renamed_rename hs hd).equivalent hd (hd.rename hs hi)
  · intro d hd hi
    refine (Derivation.renamed_explicit hi).equivalent hd ?_
    exact ⟨hd.key, hd.value, hd.ne_nil, hd.names, fun h => absurd h (by simp [Derivation.explicit]),
      hd.closing⟩

/-- The first name of `for k, v of` may be the keyword `of`, and `it.name` may be read from `over` or
from `for it of`. -/
theorem evaluate_agree_of_keyword :
    let d : Derivation := ⟨1, .reference ⟨"k", []⟩, .reference ⟨"v", ["name"]⟩, .each, ["k", "v"],
      .value (.array [.array [.string "a", .null]]), ['}']⟩
    let e : Derivation := ⟨1, .reference ⟨"it", ["name"]⟩, .slot (.value .null), .implicit, ["it"],
      .value (.array [.null]), ['}']⟩
    d.Equivalent (d.rename (Equiv.swap "k" "of")) ∧ e.Equivalent e.explicit := by
  intro d e
  obtain ⟨hrename, hexplicit⟩ := evaluate_agree_of_rename
  have hs : IsRenaming (Equiv.swap "k" "of") := by
    refine ⟨fun n hn => ?_, fun m n _ _ h => (Equiv.swap "k" "of").injective h⟩
    rw [Equiv.swap_apply_def]
    split_ifs
    · decide
    · decide
    · exact hn
  have hkey : Reference.IsWellFormed ⟨"k", []⟩ := by decide
  have hvalue : Reference.IsWellFormed ⟨"v", ["name"]⟩ := by decide
  have hname : Reference.IsWellFormed ⟨"it", ["name"]⟩ := by decide
  have hd : d.IsWellFormed :=
    ⟨fun r hr => Operand.reference.inj hr ▸ hkey, fun r hr => Operand.reference.inj hr ▸ hvalue,
      by simp [d], by decide, by simp [d], by simp [d]⟩
  have he : e.IsWellFormed :=
    ⟨fun r hr => Operand.reference.inj hr ▸ hname, by simp [e], by simp [e], by decide,
      fun _ => rfl, by simp [e]⟩
  exact ⟨hrename _ d hs hd (by simp [d]), hexplicit e he rfl⟩

end Comprehension
