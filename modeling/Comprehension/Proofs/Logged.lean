import Comprehension.Proofs.Agreement

/-!
# Steps that keep a log

A computation that keeps a log ends like one without it, with the error of the first step that fails
or with the result of the last, and lists what its steps noted on the way there.  A statement on
every state that a computation passes through is a statement on its log, whether it succeeds or not.
`Follows` pairs it with the computation without a log, and `Follows.bind` proves it step by step.

A computation may also stop because something is not there that has to be.  `Stop` tells that apart
from its errors.

## Main definitions

* `Logged`: the outcome of steps, and their log.
* `Stop`: errors, and leaving the bounds.
* `Follows`: what is logged satisfies a condition, and the outcome agrees with another.

## Main results

* `Follows.bind`, `Follows.bind_ok`: sequences of steps.
-/

namespace Comprehension

variable {ω ε ε' α α' β β' : Type}

/-! ### Outcomes with a log -/

/-- The outcome of steps, and what they noted on the way to it. -/
structure Logged (ω ε α : Type) where
  log : List ω
  outcome : Except ε α

namespace Logged

/-- The notes of steps stand in their order, and the first step that fails ends them. -/
protected def bind (x : Logged ω ε α) (f : α → Logged ω ε β) : Logged ω ε β :=
  match x.outcome with
  | .error e => ⟨x.log, .error e⟩
  | .ok a => ⟨x.log ++ (f a).log, (f a).outcome⟩

instance : Monad (Logged ω ε) where
  pure a := ⟨[], .ok a⟩
  bind := Logged.bind

/-- Fails and notes nothing. -/
def fail (e : ε) : Logged ω ε α := ⟨[], .error e⟩

/-- Notes its result. -/
def note (w : ω) : Logged ω ε ω := ⟨[w], .ok w⟩

end Logged

/-- Why a computation stops: with an error, or because something is not there that has to be. -/
inductive Stop (ε : Type)
  | error (e : ε)
  | outOfBounds

/-- A stop because of an error. -/
def Stop.IsError (s : Stop ε) (e : ε) : Prop := s = .error e

namespace Logged

/-- Fails with an error. -/
def refuse (e : ε) : Logged ω (Stop ε) α := fail (.error e)

/-- A step that notes nothing. -/
def lift (x : Except ε α) : Logged ω (Stop ε) α := ⟨[], x.mapError .error⟩

/-- What has to be there. -/
def expect : Option α → Logged ω (Stop ε) α
  | none => fail .outOfBounds
  | some a => pure a

@[simp] theorem expect_some_bind (a : α) (f : α → Logged ω (Stop ε) β) :
    (expect (some a) >>= f) = f a := rfl

end Logged

/-! ### Following a computation without a log -/

/-- All notes satisfy a condition, and the outcome agrees with that of another computation. -/
structure Follows (P : ω → Prop) (E : ε → ε' → Prop) (R : α → α' → Prop) (x : Logged ω ε α)
    (y : Except ε' α') : Prop where
  log : ∀ w ∈ x.log, P w
  outcome : Agree E R x.outcome y

namespace Follows

variable {P : ω → Prop} {E : ε → ε' → Prop} {R : α → α' → Prop} {S : β → β' → Prop}

theorem pure {a : α} {a' : α'} (h : R a a') :
    Follows P E R (Pure.pure a : Logged ω ε α) (.ok a') :=
  ⟨List.forall_mem_nil _, .ok h⟩

theorem fail {e : ε} {e' : ε'} (h : E e e') :
    Follows P E R (Logged.fail e : Logged ω ε α) (.error e') :=
  ⟨List.forall_mem_nil _, .error h⟩

theorem note {R : ω → α' → Prop} {w : ω} {a' : α'} (hP : P w) (h : R w a') :
    Follows P E R (Logged.note w : Logged ω ε ω) (.ok a') :=
  ⟨fun _ hw => List.mem_singleton.mp hw ▸ hP, .ok h⟩

/-- Steps follow steps when each of them does. -/
theorem bind {x : Logged ω ε α} {y : Except ε' α'} {f : α → Logged ω ε β} {g : α' → Except ε' β'}
    (h : Follows P E R x y) (hf : ∀ a a', R a a' → Follows P E S (f a) (g a')) :
    Follows P E S (x >>= f) (y >>= g) := by
  obtain ⟨log, outcome⟩ := x
  obtain ⟨hlog, houtcome⟩ := h
  cases houtcome with
  | error he => exact ⟨hlog, .error he⟩
  | ok ha =>
    obtain ⟨hrest, hlast⟩ := hf _ _ ha
    exact ⟨fun w hw => (List.mem_append.mp hw).elim (hlog w) (hrest w), hlast⟩

/-- A step may follow what cannot fail. -/
theorem bind_ok {x : Logged ω ε α} {a' : α'} {f : α → Logged ω ε β} {y : Except ε' β'}
    (h : Follows P E R x (.ok a')) (hf : ∀ a, R a a' → Follows P E S (f a) y) :
    Follows P E S (x >>= f) y := by
  have hR : Follows P E (fun a b => R a b ∧ b = a') x (.ok a') := by
    obtain ⟨log, outcome⟩ := x
    obtain ⟨hlog, houtcome⟩ := h
    cases houtcome with
    | ok ha => exact ⟨hlog, .ok ⟨ha, rfl⟩⟩
  exact hR.bind fun a b ⟨ha, hb⟩ => hf a (hb ▸ ha)

/-- What is lifted agrees with itself. -/
theorem lift (x : Except ε α) :
    Follows P Stop.IsError Eq (Logged.lift x : Logged ω (Stop ε) α) x := by
  refine ⟨List.forall_mem_nil _, ?_⟩
  cases x with
  | error e => exact .error rfl
  | ok a => exact .ok rfl

/-- A computation that stops with the errors of another never leaves the bounds. -/
theorem outcome_eq {x : Logged ω (Stop ε) α} {y : Except ε α}
    (h : Follows P Stop.IsError Eq x y) : x.outcome = y.mapError .error := by
  obtain ⟨log, outcome⟩ := x
  obtain ⟨-, houtcome⟩ := h
  cases houtcome with
  | error he => exact congrArg Except.error he
  | ok ha => exact congrArg Except.ok ha

end Follows

end Comprehension
