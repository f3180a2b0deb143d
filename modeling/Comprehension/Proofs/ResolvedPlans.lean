import Comprehension.Proofs.Evaluation
import Comprehension.Proofs.IndexedReading
import Comprehension.Proofs.Interpolation
import Comprehension.Proofs.Rebuilding

/-!
# Staying within bounds

What reading establishes is what running relies on.  The positions of a plan that was read are
positions of its names, and entries are split only where several names are bound to items.  A run
asks a provider for a value only after the entry passed its check, so a provider that takes an item
of the entry is asked with arrays only.

## Main definitions

* `Bindings.ResolvesField`, `Plan.IsResolved`: what holds of the names and providers of a plan.
* `Plan.runAsking`: a run that notes what its providers are asked for.

## Main results

* `isResolved_of_ofTemplate`: plans that are read are resolved.
* `Plan.follows_runAsking`: a run asks with entries that passed their check.
* `reading_and_running_stay_in_bounds`: neither reading nor running leaves its bounds.
-/

namespace Comprehension

open Text

/-! ### Plans that are read -/

/-- A path is resolved when it starts at the last position of its bound name, and takes the item at
that position exactly when there are several names, which are then bound to items. -/
structure Bindings.ResolvesField (b : Bindings) (r : Reference) (position : Nat)
    (destructures : Bool) : Prop where
  lt : position < b.names.length
  name : b.names[position]? = some r.head
  last : ∀ later, position < later → b.names[later]? ≠ some r.head
  destructures_iff : destructures = true ↔ 1 < b.names.length
  items : destructures = true → b.iteration ≠ .keys

/-- A provider that is a path is a resolved one. -/
def Bindings.Resolves (b : Bindings) (q : Provider) : Prop :=
  ∀ r position destructures, q = .field r position destructures →
    b.ResolvesField r position destructures

/-- There are names, which are those of the iteration, and both providers are resolved. -/
structure Plan.IsResolved (p : Plan) : Prop where
  names_ne_nil : p.bindings.names ≠ []
  nameText : ∀ name ∈ p.bindings.names, NameText name.toList
  implicit : p.bindings.iteration = .implicit → p.bindings.names = ["it"]
  keys : p.bindings.iteration = .keys → ∃ name, p.bindings.names = [name]
  key : p.bindings.Resolves p.key
  value : p.bindings.Resolves p.value

theorem NamesText.nameText {names : List String} {cs : List Char} (h : NamesText names cs) :
    ∀ name ∈ names, NameText name.toList := by
  induction h with
  | one hname =>
    intro n hn
    rw [List.mem_singleton.mp hn]
    exact isIdentifier_iff.mp hname
  | more hname _ _ _ ih =>
    intro n hn
    rcases List.mem_cons.mp hn with rfl | hn
    · exact isIdentifier_iff.mp hname
    · exact ih n hn

/-- The names of a clause are identifiers, the implicit one included. -/
theorem ClauseText.nameText {iteration : Iteration} {names : List String} {cs : List Char}
    (h : ClauseText iteration names cs) : ∀ name ∈ names, NameText name.toList := by
  cases h with
  | implicit =>
    intro n hn
    rw [List.mem_singleton.mp hn]
    exact isIdentifier_iff.mp (by decide)
  | named _ _ _ hnames => exact hnames.nameText

/-- The provider of an operand is resolved, since keys are bound to one name only. -/
theorem ProviderOf.resolves {b : Bindings} {o : Operand} {q : Provider}
    (h : ProviderOf b.names o q) : b.Resolves q := by
  rintro r i destructures rfl
  cases h with
  | field hi hlater =>
    refine ⟨(List.getElem?_eq_some_iff.mp hi).1, hi, hlater, decide_eq_true_iff, ?_⟩
    intro hseveral hkeys
    have hle := b.length_le_one hkeys
    have hlt := of_decide_eq_true hseveral
    omega

/-- A plan that is read is resolved. -/
theorem isResolved_of_ofTemplate {t : Template} {p : Plan} (h : Plan.ofTemplate t = .ok p) :
    p.IsResolved := by
  obtain ⟨d, ⟨_, _, _, _, -, -, -, hclause, -, -⟩, hvalid, hdenotes⟩ :=
    ofTemplate_eq_ok_iff_readsAs.mp h
  have hkey := hdenotes.key
  have hvalue := hdenotes.value
  have hone := hvalid.names
  rw [← hdenotes.names, ← hdenotes.iteration] at hclause hone
  rw [← hdenotes.names] at hkey hvalue
  refine ⟨hclause.names_ne_nil, hclause.nameText, fun himplicit => ?_,
    fun hkeys => List.length_eq_one_iff.mp (hone hkeys), hkey.resolves, hvalue.resolves⟩
  rw [himplicit] at hclause
  exact hclause.eq_over.1

/-! ### Running -/

/-- The value for an entry, and a note of what was asked for it. -/
def Provider.ask (q : Provider) (e : Value) : Logged (Provider × Value) EvalError Value :=
  ⟨[(q, e)], q.provide e⟩

namespace Plan

/-- The key and the value of an entry, with a note of what was asked for. -/
def entryAsking (p : Plan) (e : Value) : Logged (Provider × Value) EvalError (String × Value) :=
  if p.bindings.unpacks && !e.isArray then
    .fail (.cannotUnpack (Json.Layout.compact.text e) p.bindings.names)
  else do
    let key ← p.key.ask e
    match key.keyText? with
    | none => .fail (.invalidKey key.kind)
    | some name =>
      let v ← p.value.ask e
      return (name, v)

/-- Evaluates entries into a mapping, with a note of what was asked for. -/
def fillAsking (p : Plan) (m : Mapping Value) :
    List Value → Logged (Provider × Value) EvalError (Mapping Value)
  | [] => return m
  | e :: es => do
    let (name, v) ← p.entryAsking e
    p.fillAsking (m.insert name v) es

/-- Runs a plan with a note of what was asked for. -/
def runAsking (p : Plan) : Logged (Provider × Value) EvalError (Mapping Value) :=
  p.fillAsking .empty p.entries.toList

/-- What may be asked for: the key or the value for an entry that is an array if it has to be
unpacked. -/
structure MayAsk (p : Plan) (es : List Value) (asked : Provider × Value) : Prop where
  provider : asked.1 = p.key ∨ asked.1 = p.value
  entry : asked.2 ∈ es
  unpacked : p.bindings.unpacks = true → asked.2.isArray = true

variable {p : Plan} {es : List Value}

theorem MayAsk.follows_ask {q : Provider} {e : Value} (h : p.MayAsk es (q, e)) :
    Follows (p.MayAsk es) Eq Eq (q.ask e) (q.provide e) :=
  ⟨fun _ hw => List.mem_singleton.mp hw ▸ h, .refl (fun _ => rfl) (fun _ => rfl) _⟩

/-- An entry is checked before anything is asked for. -/
theorem follows_entryAsking {e : Value} (he : e ∈ es) :
    Follows (p.MayAsk es) Eq Eq (p.entryAsking e) (p.entry e) := by
  cases hcheck : p.bindings.unpacks && !e.isArray with
  | true =>
    rw [entryAsking, entry, hcheck]
    exact .fail rfl
  | false =>
    have hunpacked : p.bindings.unpacks = true → e.isArray = true := by
      intro hunpacks
      simpa [hunpacks] using hcheck
    have hkey : p.MayAsk es (p.key, e) := ⟨.inl rfl, he, hunpacked⟩
    have hvalue : p.MayAsk es (p.value, e) := ⟨.inr rfl, he, hunpacked⟩
    rw [entryAsking, entry, hcheck]
    refine hkey.follows_ask.bind fun k k' hk => ?_
    obtain rfl : k = k' := hk
    cases k.keyText? with
    | none => exact .fail rfl
    | some name =>
      refine hvalue.follows_ask.bind fun v v' hv => ?_
      obtain rfl : v = v' := hv
      exact .pure rfl

theorem fill_cons_eq_bind (p : Plan) (m : Mapping Value) (e : Value) (es : List Value) :
    (p.fill m (e :: es)).2 = p.entry e >>= fun r => (p.fill (m.insert r.1 r.2) es).2 := by
  rw [fill]
  cases p.entry e <;> rfl

theorem follows_fillAsking {more : List Value} (hmore : ∀ e ∈ more, e ∈ es) (m : Mapping Value) :
    Follows (p.MayAsk es) Eq Eq (p.fillAsking m more) (p.fill m more).2 := by
  induction more generalizing m with
  | nil => exact .pure rfl
  | cons e more ih =>
    obtain ⟨he, hmore⟩ := List.forall_mem_cons.mp hmore
    rw [fill_cons_eq_bind, fillAsking]
    refine (follows_entryAsking he).bind fun r r' hr => ?_
    obtain rfl : r = r' := hr
    exact ih hmore _

/-- A run asks for keys and values of entries that passed their check. -/
theorem follows_runAsking (p : Plan) :
    Follows (p.MayAsk p.entries.toList) Eq Eq p.runAsking p.run.2 :=
  follows_fillAsking (fun _ he => he) _

/-- A resolved path takes an item of the entry only in plans that have their entries unpacked. -/
theorem IsResolved.unpacks (h : p.IsResolved) {q : Provider} (hq : q = p.key ∨ q = p.value)
    {r : Reference} {i : Nat} (hfield : q = .field r i true) : p.bindings.unpacks = true := by
  have hresolved : p.bindings.ResolvesField r i true := by
    rcases hq with rfl | rfl
    · exact h.key _ _ _ hfield
    · exact h.value _ _ _ hfield
  rw [Bindings.unpacks, Bindings.destructures, Bool.and_eq_true, decide_eq_true_eq,
    Iteration.walksItems_iff]
  exact ⟨hresolved.destructures_iff.mp rfl, hresolved.items rfl⟩

end Plan

/-! ### Bounds -/

/-- Reading with checked indices is reading, so every index that reading computes is in bounds: each
bookmark on the way is inside of the template, whether or not reading succeeds, and what is read as
a reference starts the unread text there, is ASCII and ends between two characters.  The names of
the plan are identifiers, the positions of its paths are those of their names, and a run asks a path
for an item of the entry only when the entry is an array. -/
theorem reading_and_running_stay_in_bounds (t : Template) :
    (∀ b ∈ t.indexedReading.log, b.Valid t ∧
      ∀ r, Reference.ofText? (String.ofList b.text) = some r →
        r.raw.toList <+: b.text ∧ (∀ c ∈ r.raw.toList, c.toNat < 128) ∧
          r.raw.rawEndPos.IsValid (String.ofList b.text)) ∧
    t.indexedReading.outcome = (Plan.ofTemplate t).mapError .error ∧
    ∀ p, Plan.ofTemplate t = .ok p →
      p.IsResolved ∧ p.runAsking.outcome = p.run.2 ∧
        ∀ q e, (q, e) ∈ p.runAsking.log →
          (q = p.key ∨ q = p.value) ∧ e ∈ p.entries.toList ∧
            ∀ r i, q = .field r i true → ∃ items, e = .array items := by
  have hreading := t.follows_indexedReading
  refine ⟨fun b hb => ⟨hreading.log b hb, fun r hr => ?_⟩, hreading.outcome_eq, fun p hp => ?_⟩
  · obtain ⟨rest, hwellFormed, -, htext⟩ := Reference.ofText?_eq_some_iff.mp hr
    rw [String.toList_ofList] at htext
    exact ⟨⟨rest, htext.symm⟩, (referenceText_iff.mpr ⟨r, hwellFormed, rfl⟩).toNat_lt,
      Reference.isValid_rawEndPos hr⟩
  · have hresolved := isResolved_of_ofTemplate hp
    have hrun := p.follows_runAsking
    refine ⟨hresolved, hrun.outcome.eq, fun q e hask => ?_⟩
    obtain ⟨hq, he, hunpacked⟩ := hrun.log _ hask
    refine ⟨hq, he, fun r i hfield => ?_⟩
    exact Value.exists_array_of_kind (of_decide_eq_true (hunpacked (hresolved.unpacks hq hfield)))

/-- The items of a pair are asked for where the pair is an array. -/
theorem reading_and_running_stay_in_bounds_of_pair :
    let t := pairTemplate [(.string "a", .null)]
    let b : Bookmark := ⟨0, "k: v for k, v of".toList⟩
    let r : Reference := ⟨"k", []⟩
    let e : Value := .array [.string "a", .null]
    let p : Plan := ⟨.field r 0 true, .field ⟨"v", []⟩ 1 true, ⟨.each, ["k", "v"], nofun⟩,
      .items [e]⟩
    b ∈ t.indexedReading.log ∧ Reference.ofText? (String.ofList b.text) = some r ∧ b.Valid t ∧
      r.raw.toList <+: b.text ∧ Plan.ofTemplate t = .ok p ∧ p.IsResolved ∧
      (p.key, e) ∈ p.runAsking.log ∧ ∃ items, e = .array items := by
  intro t b r e p
  obtain ⟨hbookmarks, -, hplan⟩ := reading_and_running_stay_in_bounds t
  have htext : trim (stripRun '{' (trim t.lead.toList)) = b.text := by decide
  have hb : b ∈ t.indexedReading.log := by
    have hstart := t.start_mem_log
    rwa [htext] at hstart
  have hends : EndsReference ": v for k, v of".toList := by
    refine ⟨fun c hc => ?_, fun more hmore => absurd (List.cons.inj hmore).1 (by decide)⟩
    obtain rfl := Option.some.inj hc
    decide
  have hr : Reference.ofText? (String.ofList b.text) = some r :=
    Reference.ofText?_eq_some_iff.mpr ⟨_, by decide, hends, by decide⟩
  obtain ⟨hvalid, hreference⟩ := hbookmarks b hb
  have hp : Plan.ofTemplate t = .ok p := ofTemplate_pairTemplate _
  obtain ⟨hresolved, -, hasked⟩ := hplan p hp
  have hask : (p.key, e) ∈ p.runAsking.log := List.mem_cons_self
  exact ⟨hb, hr, hvalid, (hreference r hr).1, hp, hresolved, hask, (hasked _ e hask).2.2 r 0 rfl⟩

end Comprehension
