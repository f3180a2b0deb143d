import Comprehension.Proofs.Evaluation
import Comprehension.Proofs.Json.CanonicalText
import Comprehension.Proofs.Written

/-!
# Rebuilding objects

An object is rebuilt by walking its names and looking each one up, or by splitting the pairs of its
names and values.  The two comprehensions take different ways: the first walks keys and calls a
function, the second walks items and splits them across two names.  Both give the mapping of the
members, and this mapping is written like the object.

A run in which every entry produces a key and a value collects these pairs in their order.  The
comprehension over pairs therefore collects any list of pairs, with the last pair of a key winning,
and one over items collects these under their own texts.

## Main definitions

* `keyTemplate`, `pairTemplate`: the two comprehensions.
* `itemTemplate`: the comprehension of items that are their own keys.
* `LooksUp`: functions that look names up in a value.

## Main results

* `Plan.fill_of_produces`: a run that collects pairs.
* `evaluate_keyTemplate`, `evaluate_pairTemplate`, `evaluate_itemTemplate`: what the comprehensions
  give.
* `rebuilt_object_agrees`: both rebuild an object.
-/

namespace Comprehension

open Text

/-! ### Collecting pairs -/

/-- A run in which each entry produces a pair sets these pairs one after the other. -/
theorem Plan.fill_of_produces {p : Plan} {es : List Value} {pairs : List (String × Value)}
    (h : List.Forall₂ (fun e pair => p.Produces e pair.1 pair.2) es pairs) (m : Mapping Value) :
    (p.fill m es).2 = .ok (pairs.foldl (fun m pair => m.insert pair.1 pair.2) m) := by
  induction h generalizing m with
  | nil => rfl
  | cons he _ ih =>
    simp only [fill, entry_of_produces he, List.foldl_cons]
    exact ih _

/-- The mapping of a template whose entries each produce a pair is that of the pairs. -/
theorem evaluate_of_produces {t : Template} {p : Plan} {pairs : List (String × Value)}
    (ht : Plan.ofTemplate t = .ok p)
    (h : List.Forall₂ (fun e pair => p.Produces e pair.1 pair.2) p.entries.toList pairs) :
    t.evaluate = .ok (.ofList pairs) :=
  evaluate_eq_ok_iff.mpr ⟨p, ht, Plan.fill_of_produces h .empty⟩

/-! ### The comprehensions -/

/-- The comprehension `{k: f for k in o}`. -/
def keyTemplate (f : Value → Except String Value) (o : Value) : Template :=
  ⟨"\x7bk: ", [(.function f, " for k in "), (.value o, "\x7d")]⟩

/-- The comprehension `{k: v for k, v of pairs}`, each pair being an array of two items. -/
def pairTemplate (pairs : List (Value × Value)) : Template :=
  ⟨"\x7bk: v for k, v of ", [(.value (.array (pairs.map fun p => .array [p.1, p.2])), "\x7d")]⟩

/-- The comprehension `{it: it over items}`. -/
def itemTemplate (items : List Value) : Template :=
  ⟨"\x7bit: it over ", [(.value (.array items), "\x7d")]⟩

/-- The function gives the member of each name that a value has. -/
def LooksUp (f : Value → Except String Value) (o : Value) : Prop :=
  ∀ name v, o.member? name = some v → f (.string name) = .ok v

/-- A comprehension with a space behind its colon and on both sides of its clause is read by
checking its derivation. -/
private theorem ofTemplate_eq_plan_of_spaced {t : Template} {d : Derivation} (hd : d.IsWellFormed)
    (ht : t.stream = symbols (List.replicate d.opening '{') ++ d.key.written ++
      symbols ": ".toList ++ d.value.written ++
      symbols (' ' :: writtenClause d.iteration d.names ++ [' ']) ++ [.slot d.source] ++
      symbols d.closing) : Plan.ofTemplate t = d.plan := by
  have hblank : Blank [' '] := by decide
  refine ofTemplate_eq_plan ?_
  have h := Derivation.Derives.intro (d := d) blank_nil blank_nil blank_nil hblank hblank hblank
    (operandText_written hd.key) (operandText_written hd.value) (by simp)
    (clauseText_written hd.ne_nil hd.names hd.implicit) hd.closing
  convert h using 1
  rw [ht]
  simp [symbols]

theorem ofTemplate_keyTemplate (f : Value → Except String Value)
    (members : List (String × Value)) :
    Plan.ofTemplate (keyTemplate f (.object members)) =
      .ok ⟨.field ⟨"k", []⟩ 0 false, .function f, ⟨.keys, ["k"], fun _ => Nat.le_refl 1⟩,
        .keys (members.map Prod.fst)⟩ := by
  let d : Derivation := ⟨1, .reference ⟨"k", []⟩, .slot (.function f), .keys, ["k"],
    .value (.object members), ['}']⟩
  have hnames : ∀ n ∈ ["k"], isIdentifier n.toList = true := by decide
  have hd : d.IsWellFormed := ⟨isWellFormed_of_name (by decide), by simp [d], by simp [d], hnames,
    by simp [d], by simp [d]⟩
  rw [ofTemplate_eq_plan_of_spaced hd]
  · rfl
  · simp [Template.stream, symbols, keyTemplate, d, Operand.written, Reference.raw, Reference.parts,
      writtenClause, Iteration.keyword]

theorem ofTemplate_pairTemplate (pairs : List (Value × Value)) :
    Plan.ofTemplate (pairTemplate pairs) =
      .ok ⟨.field ⟨"k", []⟩ 0 true, .field ⟨"v", []⟩ 1 true, ⟨.each, ["k", "v"], nofun⟩,
        .items (pairs.map fun p => .array [p.1, p.2])⟩ := by
  let d : Derivation := ⟨1, .reference ⟨"k", []⟩, .reference ⟨"v", []⟩, .each, ["k", "v"],
    .value (.array (pairs.map fun p => .array [p.1, p.2])), ['}']⟩
  have hnames : ∀ n ∈ ["k", "v"], isIdentifier n.toList = true := by decide
  have hd : d.IsWellFormed := ⟨isWellFormed_of_name (by decide), isWellFormed_of_name (by decide),
    by simp [d], hnames, by simp [d], by simp [d]⟩
  rw [ofTemplate_eq_plan_of_spaced hd]
  · rfl
  · simp [Template.stream, symbols, pairTemplate, d, Operand.written, Reference.raw,
      Reference.parts, writtenClause, Iteration.keyword]

theorem ofTemplate_itemTemplate (items : List Value) :
    Plan.ofTemplate (itemTemplate items) =
      .ok ⟨.field ⟨"it", []⟩ 0 false, .field ⟨"it", []⟩ 0 false, .implicit, .items items⟩ := by
  let d : Derivation := ⟨1, .reference ⟨"it", []⟩, .reference ⟨"it", []⟩, .implicit, ["it"],
    .value (.array items), ['}']⟩
  have hnames : ∀ n ∈ ["it"], isIdentifier n.toList = true := by decide
  have hd : d.IsWellFormed := ⟨isWellFormed_of_name (by decide), isWellFormed_of_name (by decide),
    by simp [d], hnames, fun _ => rfl, by simp [d]⟩
  rw [ofTemplate_eq_plan_of_spaced hd]
  · rfl
  · simp [Template.stream, symbols, itemTemplate, d, Operand.written, Reference.raw,
      Reference.parts, writtenClause]

/-- Walking the names of an object with a function that looks them up collects its members. -/
theorem evaluate_keyTemplate {f : Value → Except String Value} {members : List (String × Value)}
    (hnames : (members.map Prod.fst).Nodup) (hf : LooksUp f (.object members)) :
    (keyTemplate f (.object members)).evaluate = .ok (.ofList members) := by
  refine evaluate_of_produces (ofTemplate_keyTemplate f members) ?_
  rw [Entries.toList, List.map_map, List.forall₂_map_left_iff, List.forall₂_same]
  intro m hm
  exact ⟨fun h => absurd h.1 (by simp), ⟨.string m.1, rfl, rfl⟩,
    congrArg (Except.mapError _) (hf m.1 m.2 ((lookup_eq_some_iff_mem hnames).mpr hm))⟩

/-- Splitting pairs collects them under the texts of their first items. -/
theorem evaluate_pairTemplate {pairs : List (Value × Value)} {named : List (String × Value)}
    (h : List.Forall₂ (fun p n => p.1.keyText? = some n.1 ∧ p.2 = n.2) pairs named) :
    (pairTemplate pairs).evaluate = .ok (.ofList named) := by
  refine evaluate_of_produces (ofTemplate_pairTemplate pairs) ?_
  rw [Entries.toList, List.forall₂_map_left_iff]
  refine h.imp fun p n hpair => ?_
  obtain ⟨hname, hvalue⟩ := hpair
  exact ⟨fun h => h.2.2 _ rfl, ⟨p.1, rfl, hname⟩, congrArg Except.ok hvalue⟩

/-- Walking items that are their own keys collects them under their texts. -/
theorem evaluate_itemTemplate {items : List Value} {named : List (String × Value)}
    (h : List.Forall₂ (fun v n => v.keyText? = some n.1 ∧ v = n.2) items named) :
    (itemTemplate items).evaluate = .ok (.ofList named) := by
  refine evaluate_of_produces (ofTemplate_itemTemplate items) (h.imp fun v n hitem => ?_)
  exact ⟨fun h => Nat.lt_irrefl 1 h.1, ⟨v, rfl, hitem.1⟩, congrArg Except.ok hitem.2⟩

/-- Pairs whose first items are strings or numbers have names. -/
theorem exists_named {pairs : List (Value × Value)}
    (h : ∀ p ∈ pairs, Plan.IsKeyKind p.1.kind) :
    ∃ named : List (String × Value),
      List.Forall₂ (fun p n => p.1.keyText? = some n.1 ∧ p.2 = n.2) pairs named := by
  induction pairs with
  | nil => exact ⟨[], .nil⟩
  | cons p pairs ih =>
    obtain ⟨hp, hpairs⟩ := List.forall_mem_cons.mp h
    obtain ⟨name, hname⟩ := Plan.isKeyKind_iff.mp hp
    obtain ⟨named, hnamed⟩ := ih hpairs
    exact ⟨(name, p.2) :: named, .cons ⟨hname, rfl⟩ hnamed⟩

/-- An object is rebuilt both by looking its names up and from its pairs in any order: both give the
mapping whose members are exactly those of the object, which is written like the object.  Pairs of a
string or a number and any value are collected under the texts of the first, the last pair of a text
winning. -/
theorem rebuilt_object_agrees :
    (∀ (members : List (String × Value)) (f : Value → Except String Value),
      (members.map Prod.fst).Nodup → LooksUp f (.object members) →
      ∀ pairs : List (String × Value), pairs.Perm members → ∃ m : Mapping Value,
        (keyTemplate f (.object members)).evaluate = .ok m ∧
        (pairTemplate (pairs.map fun p => (.string p.1, p.2))).evaluate = .ok m ∧
        m.entries.Perm members ∧
        ∀ layout : Json.Layout, layout.mappingText m = layout.text (.object members)) ∧
    ∀ pairs : List (Value × Value), (∀ p ∈ pairs, Plan.IsKeyKind p.1.kind) →
      ∃ named : List (String × Value),
        List.Forall₂ (fun p n => p.1.keyText? = some n.1 ∧ p.2 = n.2) pairs named ∧
        (pairTemplate pairs).evaluate = .ok (.ofList named) ∧
        ∀ k, (Mapping.ofList named).get? k = named.reverse.lookup k := by
  constructor
  · intro members f hnames hf pairs hpairs
    have hentries := Mapping.perm_ofList hnames
    refine ⟨.ofList members, evaluate_keyTemplate hnames hf, ?_, hentries, fun layout => ?_⟩
    · rw [← Mapping.ofList_eq_of_perm ((hpairs.map Prod.fst).nodup_iff.mpr hnames) hpairs]
      refine evaluate_pairTemplate ?_
      rw [List.forall₂_map_left_iff, List.forall₂_same]
      exact fun p _ => ⟨rfl, rfl⟩
    · rw [Json.Layout.mappingText_eq_text, Value.ofMapping]
      exact Json.text_object_of_perm layout (Mapping.nodup_keys _) hentries
  · intro pairs hpairs
    obtain ⟨named, hnamed⟩ := exists_named hpairs
    exact ⟨named, hnamed, evaluate_pairTemplate hnamed, Mapping.get?_ofList named⟩

/-- An object with an undefined member is rebuilt from its names and from its pairs in the other
order, and the pair of the text `"1"` replaces that of the number `1`. -/
theorem rebuilt_object_agrees_of_undefined :
    let members : List (String × Value) := [("b", .undefined), ("a", .object [("x", .null)])]
    let f (e : Value) : Except String Value :=
      match e with
      | .string name => .ok (((Value.object members).member? name).getD .undefined)
      | _ => .error "no name"
    let pairs : List (Value × Value) := [(.integer 1, .null), (.string "1", .boolean true)]
    (∃ m : Mapping Value, (keyTemplate f (.object members)).evaluate = .ok m ∧
      (pairTemplate (members.reverse.map fun p => (.string p.1, p.2))).evaluate = .ok m ∧
      m.entries.Perm members ∧
      ∀ layout : Json.Layout, layout.mappingText m = layout.text (.object members)) ∧
    ∃ m : Mapping Value, (pairTemplate pairs).evaluate = .ok m ∧
      m.get? "1" = some (.boolean true) := by
  intro members f pairs
  have hnames : (members.map Prod.fst).Nodup := by decide
  have hf : LooksUp f (.object members) := by
    intro name v hv
    simp only [f, hv, Option.getD_some]
  have hkinds : ∀ p ∈ pairs, Plan.IsKeyKind p.1.kind :=
    List.forall_mem_cons.mpr ⟨.inr (.inl rfl), List.forall_mem_singleton.mpr (.inl rfl)⟩
  refine ⟨rebuilt_object_agrees.1 members f hnames hf _ (List.reverse_perm members), ?_⟩
  obtain ⟨named, hnamed, hpairs, hget⟩ := rebuilt_object_agrees.2 pairs hkinds
  refine ⟨_, hpairs, ?_⟩
  obtain ⟨n, _, -, hrest, rfl⟩ := List.forall₂_cons_left_iff.mp hnamed
  obtain ⟨n', _, htext, hnil, rfl⟩ := List.forall₂_cons_left_iff.mp hrest
  obtain rfl := List.forall₂_nil_left_iff.mp hnil
  rw [hget, List.reverse_cons, List.reverse_singleton, List.singleton_append,
    Mapping.lookup_cons_ite, if_pos (Option.some.inj htext.1), ← htext.2]

end Comprehension
