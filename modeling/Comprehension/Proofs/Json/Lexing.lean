import Comprehension.Json.Token
import Comprehension.Proofs.Json.Literal
import Comprehension.Proofs.Json.Numeral
import Comprehension.Proofs.Json.Printer

/-!
# The tokens of a written value

A value is a sequence of tokens whatever its layout.  A written value without doubles is read as
the tokens of its canonical form, in front of any text that does not continue a numeral; white space
between tokens is skipped, so both layouts are read alike.

## Main definitions

* `Json.tokens`: the tokens of a value.
* `Json.Lexes`: texts that are read as given tokens.

## Main results

* `Json.lexes_bracketed`: brackets around parts.
* `Json.lexes_written`: written values.
-/

namespace Comprehension.Json

/-! ### The tokens of a value -/

mutual

/-- The tokens of a value, with its members in their order. -/
def tokens : Value → List Token
  | .array items => .beginArray :: [.comma].intercalate (itemTokens items) ++ [.endArray]
  | .object members => .beginObject :: [.comma].intercalate (memberTokens members) ++ [.endObject]
  | v => [.scalar v]

def itemTokens : List Value → List (List Token)
  | [] => []
  | v :: vs => tokens v :: itemTokens vs

def memberTokens : List (String × Value) → List (List Token)
  | [] => []
  | (name, v) :: ms => (.scalar (.string name) :: .colon :: tokens v) :: memberTokens ms

end

theorem itemTokens_eq_map (items : List Value) : itemTokens items = items.map tokens := by
  induction items with
  | nil => rfl
  | cons v vs ih => rw [itemTokens, ih, List.map_cons]

theorem memberTokens_eq_map (members : List (String × Value)) :
    memberTokens members =
      members.map fun m => .scalar (.string m.1) :: .colon :: tokens m.2 := by
  induction members with
  | nil => rfl
  | cons m ms ih => rw [memberTokens, ih, List.map_cons]

/-! ### Reading one token -/

theorem tokens?_nil : tokens? [] = some [] := by
  rw [tokens?]

theorem tokens?_space {c : Char} (h : isSpace c = true) (cs : List Char) :
    tokens? (c :: cs) = tokens? cs := by
  rw [tokens?, if_pos h]

theorem tokens?_spaces {w : List Char} (h : ∀ c ∈ w, isSpace c = true) (cs : List Char) :
    tokens? (w ++ cs) = tokens? cs := by
  induction w with
  | nil => rfl
  | cons c w ih =>
    rw [List.cons_append, tokens?_space (h c List.mem_cons_self),
      ih fun d hd => h d (List.mem_cons_of_mem _ hd)]

theorem tokens?_token {c : Char} {cs rest : List Char} {t : Token} (hspace : isSpace c = false)
    (h : readToken (c :: cs) = some (t, rest)) :
    tokens? (c :: cs) = (tokens? rest).map (t :: ·) := by
  rw [tokens?, if_neg (by simp [hspace])]
  split
  · rename_i hnone
    rw [h] at hnone
    exact absurd hnone (by simp)
  · rename_i t' rest' hsome
    rw [h] at hsome
    obtain ⟨rfl, rfl⟩ := Prod.mk.inj (Option.some.inj hsome)
    rfl

/-- A numeral is read where a digit or a minus sign stands. -/
theorem readToken_numeral {c : Char} (h : c.isDigit = true ∨ c = '-') (cs : List Char) :
    readToken (c :: cs) = (readNumeral (c :: cs)).bind fun p =>
      p.1.value?.bind fun v => some (.scalar v, p.2) := by
  rw [readToken.eq_def]
  split
  case h_11 => rfl
  all_goals
    rename_i heq
    obtain ⟨rfl, -⟩ := List.cons.inj heq
    exact absurd h (by decide)

/-! ### Reading a text -/

/-- The text is read as the tokens in front of any text that does not continue a numeral. -/
def Lexes (cs : List Char) (ts : List Token) : Prop :=
  ∀ rest, EndsNumeral rest → tokens? (cs ++ rest) = (tokens? rest).map (ts ++ ·)

theorem Lexes.tokens?_eq {cs : List Char} {ts : List Token} (h : Lexes cs ts) :
    tokens? cs = some ts := by
  have hnil := h [] endsNumeral_nil
  rw [List.append_nil, tokens?_nil, Option.map_some, List.append_nil] at hnil
  exact hnil

theorem lexes_nil : Lexes [] [] := by
  intro rest _
  simp

/-- White space in front of a text does not change its tokens. -/
theorem Lexes.spaces {w cs : List Char} {ts : List Token} (h : Lexes cs ts)
    (hw : ∀ c ∈ w, isSpace c = true) : Lexes (w ++ cs) ts := by
  intro rest hrest
  rw [List.append_assoc, tokens?_spaces hw, h rest hrest]

/-- A character that is a token by itself in front of a text. -/
theorem Lexes.mark {c : Char} {t : Token} {cs : List Char} {ts : List Token} (h : Lexes cs ts)
    (hspace : isSpace c = false) (hread : ∀ rest, readToken (c :: rest) = some (t, rest)) :
    Lexes (c :: cs) (t :: ts) := by
  intro rest hrest
  rw [List.cons_append, tokens?_token hspace (hread _), h rest hrest, Option.map_map]
  rfl

/-- Texts are read one after the other when the second does not continue a numeral. -/
theorem Lexes.append {cs ds : List Char} {ts us : List Token} (h : Lexes cs ts) (h' : Lexes ds us)
    (hends : ∀ rest, EndsNumeral rest → EndsNumeral (ds ++ rest)) :
    Lexes (cs ++ ds) (ts ++ us) := by
  intro rest hrest
  rw [List.append_assoc, h _ (hends rest hrest), h' rest hrest, Option.map_map]
  refine congrArg (Option.map · _) (funext fun r => ?_)
  exact (List.append_assoc ts us r).symm

theorem endsNumeral_spaces_append {w cs : List Char} (hw : ∀ c ∈ w, isSpace c = true)
    (h : EndsNumeral cs) : EndsNumeral (w ++ cs) := by
  cases w with
  | nil => exact h
  | cons c w =>
    have hc := hw c List.mem_cons_self
    simp only [isSpace, Bool.or_eq_true, beq_iff_eq] at hc
    refine endsNumeral_cons ?_ _
    rcases hc with ((rfl | rfl) | rfl) | rfl <;> decide

theorem lexes_spaces {w : List Char} (hw : ∀ c ∈ w, isSpace c = true) : Lexes w [] := by
  have h := lexes_nil.spaces hw
  rwa [List.append_nil] at h

/-- White space behind a text does not change its tokens. -/
theorem Lexes.append_spaces {w cs : List Char} {ts : List Token} (h : Lexes cs ts)
    (hw : ∀ c ∈ w, isSpace c = true) : Lexes (cs ++ w) ts := by
  have happend := h.append (lexes_spaces hw) fun rest => endsNumeral_spaces_append hw
  rwa [List.append_nil] at happend

/-- A text in front of white space, a comma and another text. -/
theorem Lexes.comma {w cs ds : List Char} {ts us : List Token} (h : Lexes cs ts)
    (hw : ∀ c ∈ w, isSpace c = true) (h' : Lexes ds us) :
    Lexes (cs ++ (w ++ ',' :: ds)) (ts ++ .comma :: us) := by
  have hcomma := (h'.mark (c := ',') (t := .comma) rfl fun _ => rfl).spaces hw
  refine h.append hcomma fun rest _ => ?_
  rw [List.append_assoc]
  exact endsNumeral_spaces_append hw (endsNumeral_cons (by decide) _)

/-! ### Scalars -/

theorem lexes_null : Lexes "null".toList [.scalar .null] := by
  intro rest _
  exact tokens?_token rfl rfl

theorem lexes_boolean (b : Bool) :
    Lexes (if b then "true".toList else "false".toList) [.scalar (.boolean b)] := by
  intro rest _
  cases b with
  | false => exact tokens?_token rfl rfl
  | true => exact tokens?_token rfl rfl

theorem lexes_literal (s : String) : Lexes (literal s) [.scalar (.string s)] := by
  intro rest _
  have hread : readToken ('"' :: (s.toList.flatMap escaped ++ '"' :: rest)) =
      some (.scalar (.string s), rest) := by
    rw [readToken, readLiteral_escaped]
    rfl
  rw [literal, List.cons_append, List.cons_append, List.append_assoc]
  exact tokens?_token rfl hread

/-- A written integer starts with a digit or a minus sign. -/
theorem exists_integerText_eq_cons (k : Int) :
    ∃ c cs, integerText k = c :: cs ∧ (c.isDigit = true ∨ c = '-') := by
  cases k with
  | ofNat n =>
    obtain ⟨c, cs, hcs⟩ := List.exists_cons_of_ne_nil (Nat.toDigits_ne_nil (n := n) (b := 10))
    exact ⟨c, cs, hcs, .inl (isDigit_of_mem_toDigits (hcs ▸ List.mem_cons_self))⟩
  | negSucc n => exact ⟨'-', _, rfl, .inr rfl⟩

theorem isSpace_of_numeral {c : Char} (h : c.isDigit = true ∨ c = '-') : isSpace c = false := by
  rw [Bool.eq_false_iff]
  intro hspace
  simp only [isSpace, Bool.or_eq_true, beq_iff_eq] at hspace
  rcases hspace with ((rfl | rfl) | rfl) | rfl <;> exact absurd h (by decide)

theorem lexes_integerText (n : Int64) : Lexes (integerText n.toInt) [.scalar (.integer n)] := by
  intro rest hrest
  obtain ⟨c, cs, hcs, hc⟩ := exists_integerText_eq_cons n.toInt
  have hread : readToken (c :: (cs ++ rest)) = some (.scalar (.integer n), rest) := by
    rw [readToken_numeral hc, ← List.cons_append, ← hcs, readNumeral_integerText _ hrest,
      Option.bind_some, value?_integerText, Option.bind_some]
  rw [hcs, List.cons_append]
  exact tokens?_token (isSpace_of_numeral hc) hread

/-! ### Brackets -/

theorem isSpace_of_mem_line (layout : Layout) (depth : Nat) :
    ∀ c ∈ layout.line depth, isSpace c = true := by
  intro c hc
  cases layout with
  | compact => exact absurd hc List.not_mem_nil
  | pretty =>
    rcases List.mem_cons.mp hc with rfl | h
    · rfl
    · rw [List.eq_of_mem_replicate h]
      rfl

/-- Parts separated by commas and white space are read one after the other. -/
theorem lexes_intercalate {space : List Char} {parts : List (List Char)}
    {tss : List (List Token)} (hspace : ∀ c ∈ space, isSpace c = true)
    (hparts : List.Forall₂ Lexes parts tss) (hne : parts ≠ []) :
    Lexes ((',' :: space).intercalate parts) ([.comma].intercalate tss) := by
  induction hparts with
  | nil => exact absurd rfl hne
  | @cons part us parts tss hpart hparts ih =>
    cases hparts with
    | nil =>
      rw [List.intercalate_singleton, List.intercalate_singleton]
      exact hpart
    | cons hpart' hparts =>
      have hrest := (ih (by simp)).spaces hspace
      have hcomma := hpart.comma (List.forall_mem_nil _) hrest
      rw [List.intercalate_cons_cons, List.intercalate_cons_cons]
      simpa only [List.append_assoc, List.cons_append, List.nil_append] using hcomma

/-- Brackets around a text are read as their tokens around those of the text. -/
theorem Lexes.enclosed {cs : List Char} {ts : List Token} {opening closing : Char}
    {begin finish : Token} (h : Lexes cs ts)
    (hopening : isSpace opening = false ∧ ∀ rest, readToken (opening :: rest) = some (begin, rest))
    (hclosing : isSpace closing = false ∧ ∀ rest, readToken (closing :: rest) = some (finish, rest))
    (hends : ∀ rest, EndsNumeral (closing :: rest)) :
    Lexes (opening :: cs ++ [closing]) (begin :: ts ++ [finish]) := by
  have hfinish : Lexes [closing] [finish] := lexes_nil.mark hclosing.1 hclosing.2
  exact (h.append hfinish fun rest _ => hends rest).mark hopening.1 hopening.2

/-- Parts between brackets are read as their tokens in any layout. -/
theorem lexes_bracketed (layout : Layout) (depth : Nat) {opening closing : Char}
    {begin finish : Token} {parts : List (List Char)} {tss : List (List Token)}
    (hopening : isSpace opening = false ∧ ∀ rest, readToken (opening :: rest) = some (begin, rest))
    (hclosing : isSpace closing = false ∧ ∀ rest, readToken (closing :: rest) = some (finish, rest))
    (hends : ∀ rest, EndsNumeral (closing :: rest)) (hparts : List.Forall₂ Lexes parts tss) :
    Lexes (layout.bracketed depth opening closing parts)
      (begin :: [.comma].intercalate tss ++ [finish]) := by
  rw [Layout.bracketed]
  cases hparts with
  | nil => exact lexes_nil.enclosed hopening hclosing hends
  | cons hpart hparts =>
    have hinner := lexes_intercalate (isSpace_of_mem_line layout (depth + 1))
      (.cons hpart hparts) (List.cons_ne_nil _ _)
    have houter := ((hinner.append_spaces (isSpace_of_mem_line layout depth)).spaces
      (isSpace_of_mem_line layout (depth + 1))).enclosed hopening hclosing hends
    simpa only [List.isEmpty_cons, Bool.false_eq_true, if_false, List.append_assoc,
      List.cons_append] using houter

/-! ### Values -/

theorem lexes_member (layout : Layout) (name : String) {cs : List Char} {ts : List Token}
    (h : Lexes cs ts) :
    Lexes (literal name ++ layout.colon ++ cs) (.scalar (.string name) :: .colon :: ts) := by
  have hcolon : Lexes (layout.colon ++ cs) (.colon :: ts) := by
    cases layout with
    | compact => exact h.mark rfl fun _ => rfl
    | pretty =>
      exact (h.spaces (w := [' ']) (List.forall_mem_singleton.mpr rfl)).mark rfl fun _ => rfl
  rw [List.append_assoc]
  refine (lexes_literal name).append hcolon fun rest _ => ?_
  cases layout <;> exact endsNumeral_cons (by decide) _

/-- A written value without doubles is read as the tokens of its canonical form. -/
theorem lexes_written (layout : Layout) (depth : Nat) {v : Value} (h : v.FloatFree) :
    Lexes (layout.written depth v) (tokens v.canon) := by
  induction v using Value.induction generalizing depth with
  | undefined => exact lexes_null
  | null => exact lexes_null
  | boolean b => exact lexes_boolean b
  | float x => exact absurd .refl (h x)
  | integer n => exact lexes_integerText n
  | string s => exact lexes_literal s
  | array items ih =>
    rw [Layout.written_array, Value.canon_array, tokens, itemTokens_eq_map, List.map_map]
    refine lexes_bracketed layout depth ⟨rfl, fun _ => rfl⟩ ⟨rfl, fun _ => rfl⟩
      (endsNumeral_cons (by decide)) ?_
    rw [List.forall₂_map_left_iff, List.forall₂_map_right_iff, List.forall₂_same]
    intro v hv
    exact ih v hv (depth + 1) (Value.floatFree_array_iff.mp h v hv)
  | object members ih =>
    rw [Layout.written_object, Value.canon_object, tokens, memberTokens_eq_map,
      Layout.writtenObject, Mapping.entries_map, Mapping.entries_map, List.map_map, List.map_map]
    refine lexes_bracketed layout depth ⟨rfl, fun _ => rfl⟩ ⟨rfl, fun _ => rfl⟩
      (endsNumeral_cons (by decide)) ?_
    rw [List.forall₂_map_left_iff, List.forall₂_map_right_iff, List.forall₂_same]
    intro m hm
    have hmem := (Value.mem_definedMembers.mp (Mapping.mem_of_mem_ofList hm)).1
    have hfree := Value.floatFree_object_iff.mp h m hmem
    exact lexes_member layout m.1 (ih m hmem (depth + 1) hfree)

end Comprehension.Json
