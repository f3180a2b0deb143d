import Comprehension.Json.Reader
import Comprehension.Proofs.Json.Lexing

/-!
# Reading undoes writing

The tokens of a value with distinct names bring the reader from where it expects a value to where
that value is complete, provided that the value fits below the arrays and objects that are already
open.  A written value is read as the tokens of its canonical form, so reading it gives the
canonical form.

## Main definitions

* `Json.Reading.Leads`: tokens that bring the reader from one state to another.

## Main results

* `Json.Reading.leads_intercalate`: parts between commas.
* `Json.Reading.leads_tokens`: the tokens of a value.
* `Json.read_text_eq_canon`: written values and mappings are read as their canonical forms.
-/

namespace Comprehension

/-! ### Members with distinct names -/

theorem Value.setMember_of_notMem {name : String} {v : Value} {ms : List (String × Value)}
    (h : name ∉ ms.map Prod.fst) : setMember name v ms = ms ++ [(name, v)] := by
  induction ms with
  | nil => rfl
  | cons m ms ih =>
    rw [List.map_cons, List.mem_cons, not_or] at h
    rw [setMember, if_neg (Ne.symm h.1), ih h.2, List.cons_append]

private theorem Value.foldl_setMember {before ms : List (String × Value)}
    (h : ((before ++ ms).map Prod.fst).Nodup) :
    ms.foldl (fun ms p => setMember p.1 p.2 ms) before = before ++ ms := by
  induction ms generalizing before with
  | nil => exact (List.append_nil before).symm
  | cons m ms ih =>
    have hfresh : m.1 ∉ before.map Prod.fst := by
      rw [List.map_append, List.map_cons, List.nodup_append] at h
      exact fun hmem => h.2.2 _ hmem _ List.mem_cons_self rfl
    rw [List.append_cons] at h ⊢
    rw [List.foldl_cons, setMember_of_notMem hfresh, ih h]

/-- Pairs with distinct names are the members of their object. -/
theorem Value.ofMembers_of_nodup {ms : List (String × Value)} (h : (ms.map Prod.fst).Nodup) :
    ofMembers ms = object ms := by
  have hms : (([] ++ ms).map Prod.fst).Nodup := h
  rw [ofMembers, foldl_setMember hms, List.nil_append]

namespace Json

namespace Reading

/-! ### Runs of the reader -/

/-- The tokens bring the reader from one state to another. -/
def Leads (r : Reading) (ts : List Token) (r' : Reading) : Prop :=
  ts.foldlM step r = some r'

theorem leads_nil (r : Reading) : Leads r [] r := rfl

theorem Leads.cons {r r' r'' : Reading} {t : Token} {ts : List Token} (h : step r t = some r')
    (h' : Leads r' ts r'') : Leads r (t :: ts) r'' := by
  rw [Leads, List.foldlM_cons, h]
  exact h'

theorem Leads.append {r r' r'' : Reading} {ts us : List Token} (h : Leads r ts r')
    (h' : Leads r' us r'') : Leads r (ts ++ us) r'' := by
  rw [Leads, List.foldlM_append, h]
  exact h'

/-- Items are read where the first item may stand. -/
theorem Leads.firstItem {frames : List Frame} {items : List Value} {ts : List Token}
    (h : Leads (.value (.array [] :: frames)) ts (.afterItem items frames)) :
    Leads (.firstItem frames) ts (.afterItem items frames) := by
  cases ts with
  | nil => exact absurd (Option.some.inj h) (by simp)
  | cons t ts =>
    cases t with
    | endArray => exact absurd h (by simp [Leads, step, startValue])
    | _ => exact h

/-- Members are read where the first name may stand. -/
theorem Leads.firstName {frames : List Frame} {members : List (String × Value)} {ts : List Token}
    (h : Leads (.nextName [] frames) ts (.afterMember members frames)) :
    Leads (.firstName frames) ts (.afterMember members frames) := by
  cases ts with
  | nil => exact absurd (Option.some.inj h) (by simp)
  | cons t ts =>
    cases t with
    | scalar v =>
      cases v with
      | string name => exact h
      | _ => exact absurd h (by simp [Leads, step])
    | _ => exact absurd h (by simp [Leads, step])

/-! ### Parts between commas -/

/-- Parts that each bring the reader from where a part may start to behind it do so one after the
other, when a comma brings it from behind a part to where the next may start. -/
theorem leads_intercalate {α : Type} {part : α → List Token} (start after : List α → Reading)
    (hcomma : ∀ before, step (after before) .comma = some (start before)) {as : List α}
    (hne : as ≠ [])
    (h : ∀ a ∈ as, ∀ before, Leads (start before) (part a) (after (a :: before)))
    (before : List α) :
    Leads (start before) ([.comma].intercalate (as.map part)) (after (as.reverse ++ before)) := by
  induction as generalizing before with
  | nil => exact absurd rfl hne
  | cons a as ih =>
    have ha := h a List.mem_cons_self before
    cases as with
    | nil =>
      rw [List.map_cons, List.map_nil, List.intercalate_singleton, List.reverse_singleton,
        List.singleton_append]
      exact ha
    | cons b as =>
      have hrest := ih (List.cons_ne_nil _ _) (fun x hx => h x (List.mem_cons_of_mem _ hx))
        (a :: before)
      rw [List.map_cons, List.map_cons, List.intercalate_cons_cons, ← List.map_cons,
        List.append_assoc, List.reverse_cons, List.append_assoc, List.singleton_append]
      exact ha.append (.cons (hcomma (a :: before)) hrest)

/-! ### Values -/

/-- An array is read where there is room for it and each item is read within it. -/
theorem leads_array {frames : List Frame} {items : List Value} (hroom : frames.length < maxDepth)
    (h : ∀ v ∈ items, ∀ before, Leads (.value (.array before :: frames)) (tokens v)
      (.afterItem (v :: before) frames)) :
    Leads (.value frames) (tokens (.array items)) (.complete (.array items) frames) := by
  have hopen : step (.value frames) .beginArray = some (.firstItem frames) := if_pos hroom
  rw [tokens, itemTokens_eq_map]
  refine .cons hopen ?_
  cases items with
  | nil => exact .cons rfl (leads_nil _)
  | cons v items =>
    have hitems := leads_intercalate (fun before => .value (.array before :: frames))
      (fun before => .afterItem before frames) (fun _ => rfl) (List.cons_ne_nil v items) h []
    refine hitems.firstItem.append (.cons ?_ (leads_nil _))
    rw [step, List.append_nil, List.reverse_reverse]

/-- An object with distinct names is read where there is room for it and the value of each member is
read within it. -/
theorem leads_object {frames : List Frame} {members : List (String × Value)}
    (hroom : frames.length < maxDepth) (hnames : (members.map Prod.fst).Nodup)
    (h : ∀ m ∈ members, ∀ before, Leads (.value (.object before m.1 :: frames)) (tokens m.2)
      (.afterMember (m :: before) frames)) :
    Leads (.value frames) (tokens (.object members)) (.complete (.object members) frames) := by
  have hopen : step (.value frames) .beginObject = some (.firstName frames) := if_pos hroom
  have hmember : ∀ m ∈ members, ∀ before, Leads (.nextName before frames)
      (.scalar (.string m.1) :: .colon :: tokens m.2) (.afterMember (m :: before) frames) :=
    fun m hm before => .cons rfl (.cons rfl (h m hm before))
  rw [tokens, memberTokens_eq_map]
  refine .cons hopen ?_
  cases members with
  | nil => exact .cons rfl (leads_nil _)
  | cons m members =>
    have hmembers := leads_intercalate (fun before => .nextName before frames)
      (fun before => .afterMember before frames) (fun _ => rfl) (List.cons_ne_nil m members)
      hmember []
    refine hmembers.firstName.append (.cons ?_ (leads_nil _))
    rw [step, List.append_nil, List.reverse_reverse, Value.ofMembers_of_nodup hnames]

/-- The tokens of a value that fits below the open arrays and objects complete the value. -/
theorem leads_tokens {v : Value} {frames : List Frame} (hv : v.DistinctNames)
    (hdepth : frames.length + v.depth ≤ maxDepth) :
    Leads (.value frames) (tokens v) (.complete v frames) := by
  induction v using Value.induction generalizing frames with
  | array items ih =>
    rw [Value.depth] at hdepth
    refine leads_array (by omega) fun w hw before => ?_
    have hle := Value.depth_le_depthItems hw
    have hfits : (Frame.array before :: frames).length + w.depth ≤ maxDepth := by
      rw [List.length_cons]
      omega
    exact ih w hw (Value.distinctNames_array_iff.mp hv w hw) hfits
  | object members ih =>
    rw [Value.depth] at hdepth
    obtain ⟨hnames, hvalues⟩ := Value.distinctNames_object_iff.mp hv
    refine leads_object (by omega) hnames fun m hm before => ?_
    have hle := Value.depth_le_depthMembers hm
    have hfits : (Frame.object before m.1 :: frames).length + m.2.depth ≤ maxDepth := by
      rw [List.length_cons]
      omega
    exact ih m hm (hvalues m hm) hfits
  | _ => exact .cons rfl (leads_nil _)

end Reading

/-! ### Texts -/

/-- The tokens of a value that is nested no deeper than the reader allows denote the value. -/
theorem ofTokens?_tokens {v : Value} (hv : v.DistinctNames) (hdepth : v.depth ≤ maxDepth) :
    ofTokens? (tokens v) = some v := by
  have h : (tokens v).foldlM Reading.step (.value []) = some (.done v) :=
    Reading.leads_tokens hv (by simpa using hdepth)
  rw [ofTokens?, h]
  rfl

/-- Reading a written value gives its canonical form. -/
theorem read?_written (layout : Layout) {v : Value} (hfloat : v.FloatFree)
    (hdepth : v.depth ≤ maxDepth) :
    read? (String.ofList (layout.written 0 v)) = some v.canon := by
  rw [read?, String.toList_ofList, (lexes_written layout 0 hfloat).tokens?_eq, Option.bind_some]
  exact ofTokens?_tokens (Value.distinctNames_canon v) (Nat.le_trans v.depth_canon_le hdepth)

/-- Reading what was written gives the canonical form, for values and for mappings, in both
layouts. -/
theorem read_text_eq_canon (layout : Layout) :
    (∀ v : Value, v.FloatFree → v.depth ≤ 127 → read? (layout.text v) = some v.canon) ∧
    ∀ m : Mapping Value, (Value.ofMapping m).FloatFree → (Value.ofMapping m).depth ≤ 127 →
      read? (layout.mappingText m) = some (Value.ofMapping m).canon := by
  constructor
  · intro v hfloat hdepth
    exact read?_written layout hfloat hdepth
  · intro m hfloat hdepth
    rw [Layout.mappingText_eq_text]
    exact read?_written layout hfloat hdepth

/-- A value with undefined parts, escaped characters, the least integer and members out of order is
read as its canonical form. -/
theorem read_text_eq_canon_of_unordered :
    let v : Value := .object [("b", .array [.undefined, .integer Int64.minValue]),
      ("c", .undefined), ("a\n", .string "\"\\\u0085😀")]
    let w : Value := .object [("a\n", .string "\"\\\u0085😀"),
      ("b", .array [.null, .integer Int64.minValue])]
    let m : Mapping Value := Mapping.ofList [("k", v)]
    (v.FloatFree ∧ v.depth ≤ 127 ∧ read? (Layout.pretty.text v) = some w) ∧
    (Value.ofMapping m).FloatFree ∧ (Value.ofMapping m).depth ≤ 127 ∧
      read? (Layout.compact.mappingText m) = some (.object [("k", w)]) := by
  intro v w m
  have hcanon : v.canon = w ∧ (Value.ofMapping m).canon = .object [("k", w)] := ⟨rfl, rfl⟩
  have hfloat : v.FloatFree := by
    simp only [v, Value.floatFree_object_iff, Value.floatFree_array_iff, List.forall_mem_cons]
    refine ⟨⟨?_, ?_, List.forall_mem_nil _⟩, ?_, ?_, List.forall_mem_nil _⟩ <;> rintro x ⟨⟩
  have hfloatm : (Value.ofMapping m).FloatFree :=
    Value.floatFree_object_iff.mpr (List.forall_mem_singleton.mpr hfloat)
  have hdepth : v.depth ≤ 127 := by decide
  have hdepthm : (Value.ofMapping m).depth ≤ 127 := by decide
  refine ⟨⟨hfloat, hdepth, ?_⟩, hfloatm, hdepthm, ?_⟩
  · rw [(read_text_eq_canon .pretty).1 v hfloat hdepth, hcanon.1]
  · rw [(read_text_eq_canon .compact).2 m hfloatm hdepthm, hcanon.2]

end Json

end Comprehension
