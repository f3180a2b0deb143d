import Comprehension.CommandLine.Invocation

/-!
# Asking for an evaluation

Every evaluation can be asked for: its slot texts and its input are given as named options with an
equals sign, and its expression after `--`, so that no text is taken for an option.

## Main definitions

* `Options.arguments`, `Options.response`: arguments that ask for an evaluation, and the answer.

## Main results

* `Options.ofArguments_arguments`: these arguments ask for this evaluation.
-/

namespace Comprehension.CommandLine

/-- Arguments that ask for an evaluation. -/
def Options.arguments (o : Options) : List String :=
  "eval" :: (o.slots.map ("--slot=" ++ ·) ++ (o.input?.toList.map ("--input=" ++ ·) ++
    ((if o.pretty then ["--pretty"] else []) ++ ((if o.safe then ["--safe"] else []) ++
      ["--", o.expression]))))

namespace Draft

/-- A long option with an equals sign is read as its name and the text behind the sign. -/
theorem readArgument_named (d : Draft) (name : List Char) (hname : '=' ∉ name) (value : String) :
    d.readArgument (String.ofList ('-' :: '-' :: name ++ ['=']) ++ value) =
      d.readNamed (String.ofList name) (some value) := by
  have hlist : (String.ofList ('-' :: '-' :: name ++ ['=']) ++ value).toList =
      '-' :: '-' :: (name ++ '=' :: value.toList) := by simp
  have hoption : namedOption (name ++ '=' :: value.toList) = (String.ofList name, some value) := by
    have hne : ∀ c ∈ name, (c != '=') = true := fun c hc =>
      bne_iff_ne.mpr fun heq => hname (heq ▸ hc)
    rw [namedOption, List.dropWhile_append_of_pos hne, List.takeWhile_append_of_pos hne]
    simp
  rw [readArgument, hlist]
  simp only [hoption]

/-- An argument that is read in full leads to the next one. -/
theorem readArguments_cons {d d' : Draft} {a : String} (ha : a ≠ "--")
    (h : d.readArgument a = .ok (d', none)) (as : List String) :
    d.readArguments (a :: as) = d'.readArguments as := by
  rw [readArguments, if_neg ha, h]

theorem named_ne_dashes {name : String} (hname : 2 < name.length) (value : String) :
    name ++ value ≠ "--" := by
  intro h
  have hlength := congrArg String.length h
  rw [String.length_append] at hlength
  have hdashes : "--".length = 2 := by decide
  omega

theorem readArguments_slot (d : Draft) (text : String) (as : List String) :
    d.readArguments (("--slot=" ++ text) :: as) =
      ({ d with slots := d.slots ++ [text] } : Draft).readArguments as :=
  readArguments_cons (named_ne_dashes (by decide) text)
    (d.readArgument_named "slot".toList (by decide) text) as

theorem readArguments_slots (d : Draft) (texts as : List String) :
    d.readArguments (texts.map ("--slot=" ++ ·) ++ as) =
      ({ d with slots := d.slots ++ texts } : Draft).readArguments as := by
  induction texts generalizing d with
  | nil => simp
  | cons text texts ih =>
    rw [List.map_cons, List.cons_append, readArguments_slot, ih]
    simp

theorem readArguments_input {d : Draft} (h : d.input? = none) (input? : Option String)
    (as : List String) :
    d.readArguments (input?.toList.map ("--input=" ++ ·) ++ as) =
      ({ d with input? } : Draft).readArguments as := by
  obtain ⟨expression?, slots, before?, pretty, safe⟩ := d
  obtain rfl : before? = none := h
  cases input? with
  | none => rfl
  | some text =>
    exact readArguments_cons (named_ne_dashes (by decide) text)
      (readArgument_named _ "input".toList (by decide) text) as

theorem readArguments_pretty {d : Draft} (h : d.pretty = false) (pretty : Bool)
    (as : List String) :
    d.readArguments ((if pretty then ["--pretty"] else []) ++ as) =
      ({ d with pretty } : Draft).readArguments as := by
  obtain ⟨expression?, slots, input?, before, safe⟩ := d
  obtain rfl : before = false := h
  cases pretty with
  | false => rfl
  | true => exact readArguments_cons (by decide) rfl as

theorem readArguments_safe {d : Draft} (h : d.safe = false) (safe : Bool) (as : List String) :
    d.readArguments ((if safe then ["--safe"] else []) ++ as) =
      ({ d with safe } : Draft).readArguments as := by
  obtain ⟨expression?, slots, input?, pretty, before⟩ := d
  obtain rfl : before = false := h
  cases safe with
  | false => rfl
  | true => exact readArguments_cons (by decide) rfl as

/-- The argument after `--` is the expression. -/
theorem readArguments_expression {d : Draft} (h : d.expression? = none) (text : String) :
    d.readArguments ["--", text] = .ok { d with expression? := some text } := by
  obtain ⟨before?, slots, input?, pretty, safe⟩ := d
  obtain rfl : before? = none := h
  rfl

end Draft

/-- Every evaluation is asked for by its arguments. -/
theorem Options.ofArguments_arguments (o : Options) :
    Invocation.ofArguments o.arguments = .evaluate o := by
  have hdraft : Draft.empty.readArguments o.arguments.tail =
      .ok ⟨some o.expression, o.slots, o.input?, o.pretty, o.safe⟩ := by
    rw [arguments, List.tail_cons, Draft.readArguments_slots, Draft.readArguments_input rfl,
      Draft.readArguments_pretty rfl, Draft.readArguments_safe rfl,
      Draft.readArguments_expression rfl]
    rfl
  have hcons : o.arguments = "eval" :: o.arguments.tail := rfl
  rw [hcons, Invocation.ofArguments, Invocation.ofEvaluation, hdraft]
  rfl

/-- What the program answers when it is asked for an evaluation. -/
def Options.response (o : Options) (standardInput? : Option String) : Response :=
  (Invocation.ofArguments o.arguments).respond standardInput?

theorem Options.response_eq (o : Options) (standardInput? : Option String) :
    o.response standardInput? = (Invocation.evaluate o).respond standardInput? := by
  rw [response, ofArguments_arguments]

end Comprehension.CommandLine
