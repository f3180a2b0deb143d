import Comprehension.Proofs.Json.Denotation
import Comprehension.Proofs.Json.RoundTrip

/-!
# Reading is the grammar

A text is read as a value exactly if it denotes that value, so the texts that are read are JSON.

In one direction the text that is left in a state of the reader is described by what it still has to
complete: a value, an item, a member, and then the arrays and objects that are open.  Each token
that is read leads from such a description to one for the state before it, so that at the start the
whole text is described.  In the other direction each part of the grammar has tokens that bring the
reader over it, wherever there is room for it.

## Main definitions

* `Json.Reading.Closes`, `Json.Reading.Rest`: the texts that complete a value.
* `Json.Reading.Spans`: tokens that bring the reader over a part.

## Main results

* `Json.Reading.rest_step`, `Json.Reading.rest_of_tokens?`: one token and all tokens of a text.
* `Json.Denotes.exists_spans`: the tokens of a part.
* `Json.read?_eq_some_iff`: the texts that are read, and their values.
* `Json.isJson_of_read?`: what is read is JSON.
-/

namespace Comprehension.Json

/-! ### Tokens -/

/-- The text of a token. -/
inductive TokenText : List Char → Token → Prop
  | beginArray : TokenText ['['] .beginArray
  | endArray : TokenText [']'] .endArray
  | beginObject : TokenText ['{'] .beginObject
  | endObject : TokenText ['}'] .endObject
  | comma : TokenText [','] .comma
  | colon : TokenText [':'] .colon
  | scalar {cs : List Char} {v : Value} :
      (∀ k, Denotes k cs (.value v)) → TokenText cs (.scalar v)

/-- A token that is read is that of the text in front of the rest. -/
theorem exists_tokenText {cs rest : List Char} {t : Token} (h : readToken cs = some (t, rest)) :
    ∃ ds, TokenText ds t ∧ cs = ds ++ rest := by
  rw [readToken.eq_def] at h
  -- The literals, the strings and the numbers; every other token is a single character.
  split at h
  case h_7 =>
    obtain ⟨rfl, rfl⟩ := Prod.mk.inj (Option.some.inj h)
    exact ⟨_, .scalar fun _ => .null, rfl⟩
  case h_8 =>
    obtain ⟨rfl, rfl⟩ := Prod.mk.inj (Option.some.inj h)
    exact ⟨_, .scalar fun _ => .boolean true, rfl⟩
  case h_9 =>
    obtain ⟨rfl, rfl⟩ := Prod.mk.inj (Option.some.inj h)
    exact ⟨_, .scalar fun _ => .boolean false, rfl⟩
  case h_10 =>
    obtain ⟨⟨s, _⟩, hread, heq⟩ := Option.map_eq_some_iff.mp h
    obtain ⟨rfl, rfl⟩ := Prod.mk.inj heq
    obtain ⟨ds, hds, rfl⟩ := readLiteral_eq_some_iff.mp hread
    exact ⟨_, .scalar fun _ => .string hds, rfl⟩
  case h_11 =>
    simp only [Option.bind_eq_bind, Option.bind_eq_some_iff, Option.pure_def, Option.some.injEq,
      Prod.mk.injEq, Prod.exists] at h
    obtain ⟨n, _, hread, v, hv, rfl, rfl⟩ := h
    obtain ⟨ds, hds, rfl⟩ := exists_denotesNumeral hread
    exact ⟨_, .scalar fun _ => .number hds hv, rfl⟩
  all_goals
    obtain ⟨rfl, rfl⟩ := Prod.mk.inj (Option.some.inj h)
    exact ⟨[_], by constructor, rfl⟩

/-! ### The text that is left -/

/-- What may stand behind an item or a member: white space, or a comma and more of them. -/
inductive More (k : Nat) : List Char → Part → Prop
  | noItems {w : List Char} : Spaces w → More k w (.items [])
  | noMembers {w : List Char} : Spaces w → More k w (.members [])
  | comma {w cs : List Char} {p : Part} : Spaces w → Denotes k cs p → More k (w ++ ',' :: cs) p

theorem Spaces.cons {c : Char} {w : List Char} (hc : isSpace c = true) (hw : Spaces w) :
    Spaces (c :: w) :=
  List.forall_mem_cons.mpr ⟨hc, hw⟩

section More

variable {k : Nat} {w cs ds : List Char}

theorem More.space {p : Part} {c : Char} (hc : isSpace c = true) (h : More k cs p) :
    More k (c :: cs) p := by
  cases h with
  | noItems hw => exact .noItems (hw.cons hc)
  | noMembers hw => exact .noMembers (hw.cons hc)
  | comma hw hp => exact .comma (hw.cons hc) hp

theorem Denotes.space_members {ms : List (String × Value)} {c : Char} (hc : isSpace c = true)
    (h : Denotes k cs (.members ms)) : Denotes k (c :: cs) (.members ms) := by
  cases h with
  | lastMember hw hm hw' => exact .lastMember (hw.cons hc) hm hw'
  | moreMembers hw hm hw' hms => exact .moreMembers (hw.cons hc) hm hw' hms

theorem More.items {v : Value} {vs : List Value} (hw : Spaces w) (h : Denotes k cs (.value v))
    (hmore : More k ds (.items vs)) : Denotes k (w ++ (cs ++ ds)) (.items (v :: vs)) := by
  cases hmore with
  | noItems hw' => exact .lastItem hw h hw'
  | comma hw' hvs => exact .moreItems hw h hw' hvs

theorem More.members {m : String × Value} {ms : List (String × Value)} (hw : Spaces w)
    (h : Denotes k cs (.member m)) (hmore : More k ds (.members ms)) :
    Denotes k (w ++ (cs ++ ds)) (.members (m :: ms)) := by
  cases hmore with
  | noMembers hw' => exact .lastMember hw h hw'
  | comma hw' hms => exact .moreMembers hw h hw' hms

end More

namespace Reading

/-- How many arrays and objects may be nested in a value within open ones. -/
def room (frames : List Frame) : Nat := maxDepth - frames.length

variable (u : Value)

/-- The text behind a value within open arrays and objects, when it completes the value `u`. -/
def Closes : List Frame → Value → List Char → Prop
  | [], v, cs => Spaces cs ∧ v = u
  | .array items :: frames, v, cs =>
    ∃ ds vs rest, More (room frames - 1) ds (.items vs) ∧
      Closes frames (.array ((v :: items).reverse ++ vs)) rest ∧ cs = ds ++ ']' :: rest
  | .object members name :: frames, v, cs =>
    ∃ ds ms rest, More (room frames - 1) ds (.members ms) ∧
      Closes frames (.ofMembers (((name, v) :: members).reverse ++ ms)) rest ∧
      cs = ds ++ '}' :: rest

/-- The text from a value on within open arrays and objects, when it completes the value `u`. -/
def RestValue (frames : List Frame) (cs : List Char) : Prop :=
  ∃ w ds v rest, Spaces w ∧ Denotes (room frames) ds (.value v) ∧ Closes u frames v rest ∧
    cs = w ++ (ds ++ rest)

/-- The text from the name of a member on, when it completes the value `u`. -/
def RestName (members : List (String × Value)) (frames : List Frame) (cs : List Char) : Prop :=
  ∃ ds ms rest, Denotes (room frames - 1) ds (.members ms) ∧
    Closes u frames (.ofMembers (members.reverse ++ ms)) rest ∧ cs = ds ++ '}' :: rest

/-- The text that is left in a state of the reader, when it completes the value `u`. -/
def Rest : Reading → List Char → Prop
  | .value frames, cs => RestValue u frames cs
  | .firstItem frames, cs =>
    (∃ w rest, Spaces w ∧ Closes u frames (.array []) rest ∧ cs = w ++ ']' :: rest) ∨
      RestValue u (.array [] :: frames) cs
  | .afterItem items frames, cs =>
    ∃ ds vs rest, More (room frames - 1) ds (.items vs) ∧
      Closes u frames (.array (items.reverse ++ vs)) rest ∧ cs = ds ++ ']' :: rest
  | .firstName frames, cs =>
    (∃ w rest, Spaces w ∧ Closes u frames (.object []) rest ∧ cs = w ++ '}' :: rest) ∨
      RestName u [] frames cs
  | .nextName members frames, cs => RestName u members frames cs
  | .colon name members frames, cs =>
    ∃ w rest, Spaces w ∧ RestValue u (.object members name :: frames) rest ∧ cs = w ++ ':' :: rest
  | .afterMember members frames, cs =>
    ∃ ds ms rest, More (room frames - 1) ds (.members ms) ∧
      Closes u frames (.ofMembers (members.reverse ++ ms)) rest ∧ cs = ds ++ '}' :: rest
  | .done v, cs => Spaces cs ∧ v = u

section Soundness

variable {u} {frames : List Frame} {cs : List Char}

/-- The state behind a value is described by what the value still has to be part of. -/
theorem rest_complete {v : Value} : Rest u (complete v frames) cs ↔ Closes u frames v cs := by
  cases frames with
  | nil => exact Iff.rfl
  | cons frame frames => cases frame <;> exact Iff.rfl

/-- Where an item stands, the items from there on and what follows the array are left. -/
theorem RestValue.items {items : List Value} (h : RestValue u (.array items :: frames) cs) :
    ∃ ds vs rest, Denotes (room frames - 1) ds (.items vs) ∧
      Closes u frames (.array (items.reverse ++ vs)) rest ∧ cs = ds ++ ']' :: rest := by
  obtain ⟨w, ds, v, _, hw, hv, ⟨es, vs, rest, hmore, hcloses, rfl⟩, rfl⟩ := h
  rw [List.reverse_cons, List.append_assoc, List.singleton_append] at hcloses
  exact ⟨_, _, _, hmore.items hw hv, hcloses, by simp only [List.append_assoc]⟩

/-- Where the colon of a member stands, the members from there on and what follows the object are
left. -/
theorem restName_of_colon {members : List (String × Value)} {name : String} {ds : List Char}
    (hname : DenotesString ds name) (h : Rest u (.colon name members frames) cs) :
    RestName u members frames (ds ++ cs) := by
  obtain ⟨w, _, hw, ⟨w', es, v, _, hw', hv, ⟨fs, ms, rest, hmore, hcloses, rfl⟩, rfl⟩, rfl⟩ := h
  rw [List.reverse_cons, List.append_assoc, List.singleton_append] at hcloses
  have hmembers := hmore.members spaces_nil (.member hname hw hw' hv)
  exact ⟨_, _, _, hmembers, hcloses, by simp only [List.append_assoc, List.cons_append,
    List.nil_append]⟩

/-! ### Soundness -/

theorem RestValue.space {c : Char} (hc : isSpace c = true) (h : RestValue u frames cs) :
    RestValue u frames (c :: cs) := by
  obtain ⟨w, ds, v, rest, hw, hv, hcloses, rfl⟩ := h
  exact ⟨c :: w, ds, v, rest, hw.cons hc, hv, hcloses, rfl⟩

theorem RestName.space {members : List (String × Value)} {c : Char} (hc : isSpace c = true)
    (h : RestName u members frames cs) : RestName u members frames (c :: cs) := by
  obtain ⟨ds, ms, rest, hms, hcloses, rfl⟩ := h
  exact ⟨c :: ds, ms, rest, hms.space_members hc, hcloses, rfl⟩

/-- White space may stand in front of what is left in any state. -/
theorem rest_space {r : Reading} {c : Char} (hc : isSpace c = true) (h : Rest u r cs) :
    Rest u r (c :: cs) := by
  cases r with
  | value frames => exact RestValue.space hc h
  | firstItem frames =>
    rcases h with ⟨w, rest, hw, hcloses, rfl⟩ | h
    · exact .inl ⟨c :: w, rest, hw.cons hc, hcloses, rfl⟩
    · exact .inr (h.space hc)
  | afterItem items frames =>
    obtain ⟨ds, vs, rest, hmore, hcloses, rfl⟩ := h
    exact ⟨c :: ds, vs, rest, hmore.space hc, hcloses, rfl⟩
  | firstName frames =>
    rcases h with ⟨w, rest, hw, hcloses, rfl⟩ | h
    · exact .inl ⟨c :: w, rest, hw.cons hc, hcloses, rfl⟩
    · exact .inr (h.space hc)
  | nextName members frames => exact RestName.space hc h
  | colon name members frames =>
    obtain ⟨w, rest, hw, hvalue, rfl⟩ := h
    exact ⟨c :: w, rest, hw.cons hc, hvalue, rfl⟩
  | afterMember members frames =>
    obtain ⟨ds, ms, rest, hmore, hcloses, rfl⟩ := h
    exact ⟨c :: ds, ms, rest, hmore.space hc, hcloses, rfl⟩
  | done v => exact ⟨h.1.cons hc, h.2⟩

theorem room_eq_add_one (h : frames.length < maxDepth) : room frames = room frames - 1 + 1 := by
  rw [room]
  omega

/-- A value that what follows it completes is what is left from the value on. -/
theorem restValue_of_denotes {ds : List Char} {v : Value}
    (hv : Denotes (room frames) ds (.value v)) (h : Closes u frames v cs) :
    RestValue u frames (ds ++ cs) :=
  ⟨[], ds, v, cs, spaces_nil, hv, h, rfl⟩

/-- In front of the first item or the end of an array there may be the bracket that opens it. -/
theorem restValue_of_firstItem (hroom : frames.length < maxDepth)
    (h : Rest u (.firstItem frames) cs) : RestValue u frames ('[' :: cs) := by
  rcases h with ⟨w, rest, hw, hcloses, rfl⟩ | hitems
  · have harray : Denotes (room frames) ('[' :: w ++ [']']) (.value (.array [])) := by
      rw [room_eq_add_one hroom]
      exact .emptyArray hw
    simpa using restValue_of_denotes harray hcloses
  · obtain ⟨es, vs, rest, hvs, hcloses, rfl⟩ := hitems.items
    have harray : Denotes (room frames) ('[' :: es ++ [']']) (.value (.array vs)) := by
      rw [room_eq_add_one hroom]
      exact .array hvs
    simpa using restValue_of_denotes harray hcloses

/-- In front of the first name or the end of an object there may be the brace that opens it. -/
theorem restValue_of_firstName (hroom : frames.length < maxDepth)
    (h : Rest u (.firstName frames) cs) : RestValue u frames ('{' :: cs) := by
  rcases h with ⟨w, rest, hw, hcloses, rfl⟩ | ⟨es, ms, rest, hms, hcloses, rfl⟩
  · have hobject : Denotes (room frames) ('{' :: w ++ ['}']) (.value (.object [])) := by
      rw [room_eq_add_one hroom]
      exact .emptyObject hw
    simpa using restValue_of_denotes hobject hcloses
  · have hobject : Denotes (room frames) ('{' :: es ++ ['}']) (.value (.ofMembers ms)) := by
      rw [room_eq_add_one hroom]
      exact .object hms
    simpa using restValue_of_denotes hobject hcloses

/-- The first token of a value leads from what is left behind it to what is left from the value
on. -/
theorem restValue_of_startValue {ds : List Char} {t : Token} {r : Reading} (ht : TokenText ds t)
    (hstart : startValue frames t = some r) (h : Rest u r cs) : RestValue u frames (ds ++ cs) := by
  cases ht with
  | scalar hv =>
    obtain rfl := Option.some.inj hstart
    exact restValue_of_denotes (hv _) (rest_complete.mp h)
  | beginArray =>
    obtain ⟨hroom, hr⟩ := Option.ite_none_right_eq_some.mp hstart
    obtain rfl := Option.some.inj hr
    exact restValue_of_firstItem hroom h
  | beginObject =>
    obtain ⟨hroom, hr⟩ := Option.ite_none_right_eq_some.mp hstart
    obtain rfl := Option.some.inj hr
    exact restValue_of_firstName hroom h
  | _ => exact absurd hstart (by simp [startValue])

/-- A token leads from what is left behind it to what is left in front of it. -/
theorem rest_step {r r' : Reading} {ds : List Char} {t : Token} (ht : TokenText ds t)
    (hstep : step r t = some r') (h : Rest u r' cs) : Rest u r (ds ++ cs) := by
  -- One case for each state with the tokens it takes; in the last the token is not taken.
  fun_cases step r t with
  | case1 frames t => exact restValue_of_startValue ht hstep h
  | case2 frames =>
    cases ht
    obtain rfl := Option.some.inj hstep
    exact .inl ⟨[], _, spaces_nil, rest_complete.mp h, rfl⟩
  | case3 frames t hend =>
    rw [step] at hstep
    · exact .inr (restValue_of_startValue ht hstep h)
    · exact hend
  | case4 items frames =>
    cases ht
    obtain rfl := Option.some.inj hstep
    obtain ⟨ds, vs, rest, hvs, hcloses, rfl⟩ := RestValue.items h
    exact ⟨_, _, _, .comma spaces_nil hvs, hcloses, rfl⟩
  | case5 items frames =>
    cases ht
    obtain rfl := Option.some.inj hstep
    refine ⟨[], [], _, .noItems spaces_nil, ?_, rfl⟩
    rw [List.append_nil]
    exact rest_complete.mp h
  | case6 frames =>
    cases ht
    obtain rfl := Option.some.inj hstep
    exact .inl ⟨[], _, spaces_nil, rest_complete.mp h, rfl⟩
  | case7 frames name =>
    cases ht with
    | scalar hname =>
      obtain rfl := Option.some.inj hstep
      exact .inr (restName_of_colon (hname 0).denotesString h)
  | case8 members frames name =>
    cases ht with
    | scalar hname =>
      obtain rfl := Option.some.inj hstep
      exact restName_of_colon (hname 0).denotesString h
  | case9 name members frames =>
    cases ht
    obtain rfl := Option.some.inj hstep
    exact ⟨[], _, spaces_nil, h, rfl⟩
  | case10 members frames =>
    cases ht
    obtain rfl := Option.some.inj hstep
    obtain ⟨ds, ms, rest, hms, hcloses, rfl⟩ := h
    exact ⟨_, _, _, .comma spaces_nil hms, hcloses, rfl⟩
  | case11 members frames =>
    cases ht
    obtain rfl := Option.some.inj hstep
    refine ⟨[], [], _, .noMembers spaces_nil, ?_, rfl⟩
    rw [List.append_nil]
    exact rest_complete.mp h
  | case12 r t =>
    rw [step] at hstep
    · exact absurd hstep (by simp)
    all_goals assumption

/-- What is left in the state from which the tokens of a text complete a value is the text. -/
theorem rest_of_tokens? {ts : List Token} (h : tokens? cs = some ts) {r : Reading}
    (hread : (ts.foldlM step r).bind value? = some u) : Rest u r cs := by
  -- The text is taken apart as it is split into tokens, and put together again from its end.
  fun_induction tokens? cs generalizing ts r with
  | case1 =>
    obtain rfl := Option.some.inj h
    cases r with
    | done v => exact ⟨spaces_nil, Option.some.inj hread⟩
    | _ => exact absurd hread (by simp [value?])
  | case2 c cs hc ih => exact rest_space hc (ih h hread)
  | case3 => exact absurd h (by simp)
  | case4 c cs _ t rest htoken ih =>
    obtain ⟨ts, hts, rfl⟩ := Option.map_eq_some_iff.mp h
    obtain ⟨ds, hds, hcs⟩ := exists_tokenText htoken
    rw [List.foldlM_cons, Option.bind_eq_bind, Option.bind_assoc, Option.bind_eq_some_iff] at hread
    obtain ⟨r', hstep, hread⟩ := hread
    rw [hcs]
    exact rest_step hds hstep (ih hts hread)

end Soundness

/-! ### Completeness -/

/-- The tokens bring the reader over a part, wherever there is room for it. -/
def Spans (k : Nat) (ts : List Token) : Part → Prop
  | .value v => ∀ frames, k ≤ room frames → Leads (.value frames) ts (complete v frames)
  | .member m => ∀ before frames, k + 1 ≤ room frames →
    Leads (.nextName before frames) ts (.afterMember (m :: before) frames)
  | .items vs => ∀ before frames, k + 1 ≤ room frames →
    Leads (.value (.array before :: frames)) ts (.afterItem (vs.reverse ++ before) frames)
  | .members ms => ∀ before frames, k + 1 ≤ room frames →
    Leads (.nextName before frames) ts (.afterMember (ms.reverse ++ before) frames)

section Completeness

variable {k : Nat} {ts us : List Token}

theorem step_beginArray {frames : List Frame} (h : k + 1 ≤ room frames) :
    step (.value frames) .beginArray = some (.firstItem frames) := by
  rw [room] at h
  exact if_pos (by omega)

theorem step_beginObject {frames : List Frame} (h : k + 1 ≤ room frames) :
    step (.value frames) .beginObject = some (.firstName frames) := by
  rw [room] at h
  exact if_pos (by omega)

theorem spans_scalar (v : Value) : Spans k [.scalar v] (.value v) :=
  fun _ _ => .cons rfl (leads_nil _)

theorem spans_emptyArray : Spans (k + 1) [.beginArray, .endArray] (.value (.array [])) :=
  fun _ hroom => .cons (step_beginArray hroom) (.cons rfl (leads_nil _))

theorem spans_emptyObject : Spans (k + 1) [.beginObject, .endObject] (.value (.object [])) :=
  fun _ hroom => .cons (step_beginObject hroom) (.cons rfl (leads_nil _))

theorem Spans.array {vs : List Value} (h : Spans k ts (.items vs)) :
    Spans (k + 1) (.beginArray :: ts ++ [.endArray]) (.value (.array vs)) := by
  intro frames hroom
  refine .cons (step_beginArray hroom) ((h [] frames hroom).firstItem.append ?_)
  rw [List.append_nil]
  refine .cons ?_ (leads_nil _)
  rw [step, List.reverse_reverse]

theorem Spans.object {ms : List (String × Value)} (h : Spans k ts (.members ms)) :
    Spans (k + 1) (.beginObject :: ts ++ [.endObject]) (.value (.ofMembers ms)) := by
  intro frames hroom
  refine .cons (step_beginObject hroom) ((h [] frames hroom).firstName.append ?_)
  rw [List.append_nil]
  refine .cons ?_ (leads_nil _)
  rw [step, List.reverse_reverse]

theorem Spans.member {name : String} {v : Value} (h : Spans k ts (.value v)) :
    Spans k (.scalar (.string name) :: .colon :: ts) (.member (name, v)) := by
  intro before frames hroom
  exact .cons rfl (.cons rfl (h _ (Nat.le_sub_one_of_lt hroom)))

theorem Spans.lastItem {v : Value} (h : Spans k ts (.value v)) : Spans k ts (.items [v]) :=
  fun _ _ hroom => h _ (Nat.le_sub_one_of_lt hroom)

theorem Spans.moreItems {v : Value} {vs : List Value} (h : Spans k ts (.value v))
    (hs : Spans k us (.items vs)) : Spans k (ts ++ .comma :: us) (.items (v :: vs)) := by
  intro before frames hroom
  refine (h (.array before :: frames) (Nat.le_sub_one_of_lt hroom)).append (.cons rfl ?_)
  rw [List.reverse_cons, List.append_assoc]
  exact hs (v :: before) frames hroom

theorem Spans.moreMembers {m : String × Value} {ms : List (String × Value)}
    (h : Spans k ts (.member m)) (hs : Spans k us (.members ms)) :
    Spans k (ts ++ .comma :: us) (.members (m :: ms)) := by
  intro before frames hroom
  refine (h before frames hroom).append (.cons rfl ?_)
  rw [List.reverse_cons, List.append_assoc]
  exact hs (m :: before) frames hroom

end Completeness

end Reading

section Lexes

variable {cs : List Char}

theorem lexes_numeral {n : Numeral} {v : Value} (h : DenotesNumeral cs n)
    (hv : n.value? = some v) : Lexes cs [.scalar v] := by
  intro rest hrest
  obtain ⟨c, ds, rfl, hc⟩ := h.exists_cons
  have hread : readToken (c :: (ds ++ rest)) = some (.scalar v, rest) := by
    rw [readToken_numeral hc, ← List.cons_append, h.readNumeral_append hrest, Option.bind_some, hv,
      Option.bind_some]
  exact tokens?_token (isSpace_of_numeral hc) hread

theorem lexes_string {s : String} (h : DenotesString cs s) : Lexes cs [.scalar (.string s)] := by
  intro rest _
  obtain ⟨ds, rfl⟩ := h.exists_cons
  have hread : readToken ('"' :: (ds ++ rest)) = some (.scalar (.string s), rest) := by
    rw [readToken, readLiteral_eq_some_iff.mpr ⟨ds, h, rfl⟩]
    rfl
  exact tokens?_token rfl hread

end Lexes

open Reading in
/-- Every part has tokens that bring the reader over it. -/
theorem Denotes.exists_spans {k : Nat} {cs : List Char} {p : Part} (h : Denotes k cs p) :
    ∃ ts, Lexes cs ts ∧ Spans k ts p := by
  -- What follows matters only behind a number, and no bracket continues one.
  have harray {cs ts} (h : Lexes cs ts) :
      Lexes ('[' :: cs ++ [']']) (.beginArray :: ts ++ [.endArray]) :=
    h.enclosed ⟨rfl, fun _ => rfl⟩ ⟨rfl, fun _ => rfl⟩ (endsNumeral_cons (by decide))
  have hobject {cs ts} (h : Lexes cs ts) :
      Lexes ('{' :: cs ++ ['}']) (.beginObject :: ts ++ [.endObject]) :=
    h.enclosed ⟨rfl, fun _ => rfl⟩ ⟨rfl, fun _ => rfl⟩ (endsNumeral_cons (by decide))
  induction h with
  | null => exact ⟨_, lexes_null, spans_scalar _⟩
  | boolean b => exact ⟨_, lexes_boolean b, spans_scalar _⟩
  | number hnumeral hv => exact ⟨_, lexes_numeral hnumeral hv, spans_scalar _⟩
  | string hstring => exact ⟨_, lexes_string hstring, spans_scalar _⟩
  | emptyArray hw => exact ⟨_, harray (lexes_spaces hw), spans_emptyArray⟩
  | array _ ih =>
    obtain ⟨ts, hlexes, hspans⟩ := ih
    exact ⟨_, harray hlexes, hspans.array⟩
  | emptyObject hw => exact ⟨_, hobject (lexes_spaces hw), spans_emptyObject⟩
  | object _ ih =>
    obtain ⟨ts, hlexes, hspans⟩ := ih
    exact ⟨_, hobject hlexes, hspans.object⟩
  | member hname hw hw' _ ih =>
    obtain ⟨ts, hlexes, hspans⟩ := ih
    refine ⟨_, (lexes_string hname).append
      (((hlexes.spaces hw').mark (c := ':') rfl fun _ => rfl).spaces hw) fun rest _ => ?_,
      hspans.member⟩
    rw [List.append_assoc]
    exact endsNumeral_spaces_append hw (endsNumeral_cons (by decide) _)
  | lastItem hw _ hw' ih =>
    obtain ⟨ts, hlexes, hspans⟩ := ih
    exact ⟨ts, (hlexes.append_spaces hw').spaces hw, hspans.lastItem⟩
  | moreItems hw _ hw' _ ih ihs =>
    obtain ⟨ts, hlexes, hspans⟩ := ih
    obtain ⟨us, hlexes', hspans'⟩ := ihs
    exact ⟨_, (hlexes.comma hw' hlexes').spaces hw, hspans.moreItems hspans'⟩
  | lastMember hw _ hw' ih =>
    obtain ⟨ts, hlexes, hspans⟩ := ih
    exact ⟨ts, (hlexes.append_spaces hw').spaces hw, hspans⟩
  | moreMembers hw _ hw' _ ih ihs =>
    obtain ⟨ts, hlexes, hspans⟩ := ih
    obtain ⟨us, hlexes', hspans'⟩ := ihs
    exact ⟨_, (hlexes.comma hw' hlexes').spaces hw, hspans.moreMembers hspans'⟩

/-! ### Reading texts -/

/-- A text is read as a value exactly if it denotes the value. -/
theorem read?_eq_some_iff {text : String} {v : Value} : read? text = some v ↔ IsJsonOf v text := by
  constructor
  · intro h
    obtain ⟨ts, hts, hread⟩ := Option.bind_eq_some_iff.mp h
    obtain ⟨w, cs, _, w', hw, hvalue, ⟨hw', rfl⟩, htext⟩ := Reading.rest_of_tokens? hts hread
    rw [← String.ofList_toList (s := text), htext]
    exact .value hw hvalue hw'
  · rintro ⟨hw, hvalue, hw'⟩
    obtain ⟨ts, hlexes, hspans⟩ := hvalue.exists_spans
    have hread : ts.foldlM Reading.step (.value []) = some (.done v) := hspans [] (Nat.le_refl _)
    rw [read?, String.toList_ofList, ((hlexes.append_spaces hw').spaces hw).tokens?_eq,
      Option.bind_some, ofTokens?, hread]
    rfl

/-- What is read is JSON. -/
theorem isJson_of_read? {text : String} {v : Value} (h : read? text = some v) : IsJson text :=
  (read?_eq_some_iff.mp h).isJson

end Comprehension.Json
