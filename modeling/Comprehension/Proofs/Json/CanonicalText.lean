import Comprehension.Proofs.Json.Lexing

/-!
# The text of a value as its canonical form

Values that differ only in the order of members are written alike.  Conversely the tokens of a value
determine it together with the place where they end, so two values without doubles that are written
alike have the same canonical form, however deep they are nested.  Between values without undefined
parts this is equality.

## Main results

* `Json.intercalate_append_inj`: parts that determine where they end, between separators.
* `Json.tokens_append_inj`: the tokens of a value determine the value and where they end.
* `Json.text_canonical`: the text of a value identifies it up to the order of members.
-/

namespace Comprehension.Json

/-! ### Tokens determine the value -/

section Parts

variable {α : Type} {part : α → List Token} {close : Token}

/-- The tokens after the first of several parts in front of a closing token: the other parts, each
after a comma, and then the closing token. -/
private def following (part : α → List Token) (close : Token) (ts : List Token) :
    List α → List Token
  | [] => close :: ts
  | a :: as => .comma :: (part a ++ following part close ts as)

private theorem intercalate_cons_append (a : α) (as : List α) (ts : List Token) :
    [.comma].intercalate ((a :: as).map part) ++ close :: ts =
      part a ++ following part close ts as := by
  induction as generalizing a with
  | nil => rw [List.map_cons, List.map_nil, List.intercalate_singleton, following]
  | cons b as ih =>
    rw [List.map_cons, List.map_cons, List.intercalate_cons_cons, ← List.map_cons,
      List.append_assoc, List.append_assoc, ih, following, List.singleton_append]

private theorem following_inj (hclose : close ≠ .comma) {as bs : List α}
    (hinj : ∀ a ∈ as, ∀ b ts us, part a ++ ts = part b ++ us → a = b ∧ ts = us)
    {ts us : List Token} (h : following part close ts as = following part close us bs) :
    as = bs ∧ ts = us := by
  induction as generalizing bs with
  | nil =>
    cases bs with
    | nil => exact ⟨rfl, (List.cons.inj h).2⟩
    | cons b bs => exact absurd (List.cons.inj h).1 hclose
  | cons a as ih =>
    cases bs with
    | nil => exact absurd (List.cons.inj h).1.symm hclose
    | cons b bs =>
      obtain ⟨rfl, hrest⟩ := hinj a List.mem_cons_self b _ _ (List.cons.inj h).2
      obtain ⟨rfl, hts⟩ := ih (fun x hx => hinj x (List.mem_cons_of_mem _ hx)) hrest
      exact ⟨rfl, hts⟩

/-- Where each part determines itself and its end, so do parts between commas in front of a closing
token. -/
theorem intercalate_append_inj (hclose : close ≠ .comma)
    (hpart : ∀ a ts us, part a ++ ts ≠ close :: us) {as bs : List α}
    (hinj : ∀ a ∈ as, ∀ b ts us, part a ++ ts = part b ++ us → a = b ∧ ts = us)
    {ts us : List Token}
    (h : [.comma].intercalate (as.map part) ++ close :: ts =
      [.comma].intercalate (bs.map part) ++ close :: us) : as = bs ∧ ts = us := by
  cases as with
  | nil =>
    cases bs with
    | nil => exact ⟨rfl, (List.cons.inj h).2⟩
    | cons b bs =>
      rw [intercalate_cons_append] at h
      exact absurd h.symm (hpart b _ ts)
  | cons a as =>
    cases bs with
    | nil =>
      rw [intercalate_cons_append] at h
      exact absurd h (hpart a _ us)
    | cons b bs =>
      rw [intercalate_cons_append, intercalate_cons_append] at h
      obtain ⟨rfl, hrest⟩ := hinj a List.mem_cons_self b _ _ h
      have htail : ∀ x ∈ as, ∀ b ts us, part x ++ ts = part b ++ us → x = b ∧ ts = us :=
        fun x hx => hinj x (List.mem_cons_of_mem _ hx)
      obtain ⟨rfl, hts⟩ := following_inj hclose htail hrest
      exact ⟨rfl, hts⟩

end Parts

/-- The first token of a value closes nothing. -/
theorem tokens_append_ne {close : Token} (hclose : close = .endArray ∨ close = .endObject)
    (v : Value) (ts us : List Token) : tokens v ++ ts ≠ close :: us := by
  rcases hclose with rfl | rfl <;> cases v <;> simp [tokens]

/-- The tokens of a value determine the value and where they end. -/
theorem tokens_append_inj {v w : Value} {ts us : List Token}
    (h : tokens v ++ ts = tokens w ++ us) : v = w ∧ ts = us := by
  induction v using Value.induction generalizing w ts us with
  | array items ih =>
    cases w with
    | array ws =>
      simp only [tokens, itemTokens_eq_map, List.cons_append, List.append_assoc,
        List.nil_append, List.cons.injEq, true_and] at h
      obtain ⟨hitems, hts⟩ := intercalate_append_inj (by simp)
        (tokens_append_ne (.inl rfl)) (fun v hv w ts us h => ih v hv h) h
      exact ⟨congrArg _ hitems, hts⟩
    | _ => simp [tokens] at h
  | object members ih =>
    cases w with
    | object ns =>
      simp only [tokens, memberTokens_eq_map, List.cons_append, List.append_assoc,
        List.nil_append, List.cons.injEq, true_and] at h
      have hinj : ∀ m ∈ members, ∀ (n : String × Value) ts us,
          (.scalar (.string m.1) :: .colon :: tokens m.2) ++ ts =
            (.scalar (.string n.1) :: .colon :: tokens n.2) ++ us → m = n ∧ ts = us := by
        intro m hm n ts us hmn
        simp only [List.cons_append, List.cons.injEq, Token.scalar.injEq, Value.string.injEq,
          true_and] at hmn
        obtain ⟨hvalue, hts⟩ := ih m hm hmn.2
        exact ⟨Prod.ext hmn.1 hvalue, hts⟩
      obtain ⟨hmembers, hts⟩ := intercalate_append_inj (by simp) (by simp) hinj h
      exact ⟨congrArg _ hmembers, hts⟩
    | _ => simp [tokens] at h
  | _ => cases w <;> simp_all [tokens]

theorem tokens_inj {v w : Value} (h : tokens v = tokens w) : v = w :=
  (tokens_append_inj (congrArg (· ++ []) h)).1

/-! ### Texts -/

/-- Values without doubles are written alike exactly when they have the same canonical form. -/
theorem text_eq_iff_canon_eq (layout : Layout) {v w : Value} (hv : v.FloatFree)
    (hw : w.FloatFree) : layout.text v = layout.text w ↔ v.canon = w.canon := by
  constructor
  · intro h
    have hchars : layout.written 0 v = layout.written 0 w := String.ofList_inj.mp h
    have htokens := (lexes_written layout 0 hv).tokens?_eq
    rw [hchars, (lexes_written layout 0 hw).tokens?_eq] at htokens
    exact tokens_inj (Option.some.inj htokens).symm
  · intro h
    rw [Layout.text, Layout.text, ← Layout.written_canon, h, Layout.written_canon]

/-- Objects with the same members, with distinct names, are written alike. -/
theorem text_object_of_perm (layout : Layout) {ms ns : List (String × Value)}
    (h : (ms.map Prod.fst).Nodup) (hp : ms.Perm ns) :
    layout.text (.object ms) = layout.text (.object ns) := by
  rw [Layout.text, Layout.text, Layout.written_object, Layout.written_object,
    Mapping.ofList_eq_of_perm (Value.nodup_definedMembers h) (hp.filter _), Value.definedMembers]

/-- The text of a value is the same for every order of members, that of a mapping is that of an
object with its pairs in any order, and values without doubles and undefined parts are written alike
exactly when they are equal. -/
theorem text_canonical (layout : Layout) :
    (∀ v w : Value, v.DistinctNames → v.Reordered w → layout.text v = layout.text w) ∧
    (∀ (m : Mapping Value) (members : List (String × Value)), members.Perm m.entries →
      layout.mappingText m = layout.text (.object members)) ∧
    ∀ v w : Value, v.DistinctNames → w.DistinctNames → v.FloatFree → w.FloatFree →
      v.UndefinedFree → w.UndefinedFree →
      (layout.text v = layout.text w ↔ v.equal w = true) := by
  refine ⟨?_, ?_, ?_⟩
  · intro v w hv h
    rw [Layout.text, Layout.text, ← Layout.written_canon, h.canon_eq hv, Layout.written_canon]
  · intro m members hp
    rw [Layout.mappingText_eq_text, Value.ofMapping]
    exact text_object_of_perm layout m.nodup_keys hp.symm
  · intro v w hv hw fv fw uv uw
    rw [text_eq_iff_canon_eq layout fv fw, Value.equal_iff_canon_eq hv hw fv fw uv uw]

/-- The members of an object inside an array may stand in either order. -/
theorem text_canonical_of_swap :
    let ms : List (String × Value) := [("b", .integer 1), ("a", .string "1")]
    let ns : List (String × Value) := [("a", .string "1"), ("b", .integer 1)]
    let v : Value := .array [.object ms]
    let w : Value := .array [.object ns]
    (v.DistinctNames ∧ v.Reordered w ∧ Layout.pretty.text v = Layout.pretty.text w) ∧
    Layout.compact.mappingText (Mapping.ofList ms) = Layout.compact.text (.object ms) ∧
    (w.DistinctNames ∧ v.FloatFree ∧ w.FloatFree ∧ v.UndefinedFree ∧ w.UndefinedFree ∧
      v.equal w = true) := by
  intro ms ns v w
  have hv : v.DistinctNames := by
    simp only [v, ms, Value.distinctNames_object_iff, Value.distinctNames_array_iff,
      List.forall_mem_cons]
    refine ⟨⟨by decide, ?_, ?_, List.forall_mem_nil _⟩, List.forall_mem_nil _⟩ <;> rintro _ ⟨⟩
  have hvw : v.Reordered w := .item [] [] (.perm (.swap _ _ _))
  have hfloat : v.FloatFree ∧ w.FloatFree := by
    simp only [v, w, ms, ns, Value.floatFree_object_iff, Value.floatFree_array_iff,
      List.forall_mem_cons]
    refine ⟨⟨⟨?_, ?_, List.forall_mem_nil _⟩, List.forall_mem_nil _⟩,
      ⟨?_, ?_, List.forall_mem_nil _⟩, List.forall_mem_nil _⟩ <;> rintro _ ⟨⟩
  have hundefined : v.UndefinedFree ∧ w.UndefinedFree := by
    simp only [v, w, ms, ns, Value.undefinedFree_object_iff, Value.undefinedFree_array_iff,
      List.forall_mem_cons]
    refine ⟨⟨⟨?_, ?_, List.forall_mem_nil _⟩, List.forall_mem_nil _⟩,
      ⟨?_, ?_, List.forall_mem_nil _⟩, List.forall_mem_nil _⟩ <;> rintro ⟨⟩
  have htext := (text_canonical .pretty).1 v w hv hvw
  have hw := hvw.distinctNames hv
  refine ⟨⟨hv, hvw, htext⟩, ?_, hw, hfloat.1, hfloat.2, hundefined.1, hundefined.2, ?_⟩
  · exact (text_canonical .compact).2.1 (Mapping.ofList ms) ms (.swap _ _ _)
  · exact ((text_canonical .pretty).2.2 v w hv hw hfloat.1 hfloat.2 hundefined.1 hundefined.2).mp
      htext

end Comprehension.Json
