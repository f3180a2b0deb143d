import Mathlib.Logic.Basic

/-!
# Outcomes of steps

A sequence of steps ends with the error of the first step that fails, or with the result of the
last.  Two computations agree when both fail, with related errors, or both succeed, with related
results.  Statements on two runs of the same steps are stated with this relation and proved step by
step: `Agree.bind` takes agreeing steps to agreeing sequences of steps.

## Main definitions

* `Agree`: agreeing outcomes.

## Main results

* `except_bind_eq_ok_iff`, `except_bind_eq_error_iff`: how a sequence of steps ends.
* `except_mapError_eq_ok_iff`, `except_mapError_eq_error_iff`: errors put into other words.
* `Agree.bind`, `Agree.mapError`, `Agree.mono`, `Agree.eq`.
-/

namespace Comprehension

variable {ε ε' φ φ' α α' β β' : Type}

theorem except_bind_eq_ok_iff {x : Except ε α} {f : α → Except ε β} {b : β} :
    x >>= f = .ok b ↔ ∃ a, x = .ok a ∧ f a = .ok b := by
  cases x with
  | error e => exact ⟨fun h => absurd h (by simp [bind, Except.bind]), fun ⟨_, h, _⟩ => nomatch h⟩
  | ok a => exact ⟨fun h => ⟨a, rfl, h⟩, fun ⟨_, h, hf⟩ => Except.ok.inj h ▸ hf⟩

theorem except_bind_eq_error_iff {x : Except ε α} {f : α → Except ε β} {e : ε} :
    x >>= f = .error e ↔ x = .error e ∨ ∃ a, x = .ok a ∧ f a = .error e := by
  cases x with
  | error e' => simp [bind, Except.bind]
  | ok a => simp [bind, Except.bind]

theorem except_mapError_eq_ok_iff {f : ε → ε'} {x : Except ε α} {a : α} :
    x.mapError f = .ok a ↔ x = .ok a := by
  cases x with
  | error e => exact ⟨nofun, nofun⟩
  | ok b => exact ⟨fun h => congrArg _ (Except.ok.inj h), fun h => congrArg _ (Except.ok.inj h)⟩

theorem except_mapError_eq_error_iff {f : ε → ε'} {x : Except ε α} {e' : ε'} :
    x.mapError f = .error e' ↔ ∃ e, x = .error e ∧ f e = e' := by
  cases x with
  | error e =>
    refine ⟨fun h => ⟨e, rfl, Except.error.inj h⟩, ?_⟩
    rintro ⟨_, h, rfl⟩
    exact Except.error.inj h ▸ rfl
  | ok a => exact ⟨nofun, nofun⟩

theorem exists_eq_ok_of_forall_ne_error {x : Except ε α} (h : ∀ e, x ≠ .error e) :
    ∃ a, x = .ok a := by
  cases x with
  | error e => exact absurd rfl (h e)
  | ok a => exact ⟨a, rfl⟩

/-- Both outcomes are errors that are related, or both are results that are related. -/
inductive Agree (E : ε → ε' → Prop) (R : α → α' → Prop) : Except ε α → Except ε' α' → Prop
  | error {e : ε} {e' : ε'} : E e e' → Agree E R (.error e) (.error e')
  | ok {a : α} {a' : α'} : R a a' → Agree E R (.ok a) (.ok a')

namespace Agree

variable {E : ε → ε' → Prop} {F : φ → φ' → Prop} {R : α → α' → Prop} {S : β → β' → Prop}
  {x : Except ε α} {x' : Except ε' α'}

/-- Agreeing steps after agreeing steps agree. -/
theorem bind {f : α → Except ε β} {f' : α' → Except ε' β'} (h : Agree E R x x')
    (hf : ∀ a a', R a a' → Agree E S (f a) (f' a')) : Agree E S (x >>= f) (x' >>= f') := by
  cases h with
  | error he => exact .error he
  | ok ha => exact hf _ _ ha

/-- Outcomes still agree after their errors have been put into other words. -/
theorem mapError {f : ε → φ} {f' : ε' → φ'} (h : Agree E R x x')
    (hf : ∀ e e', E e e' → F (f e) (f' e')) : Agree F R (x.mapError f) (x'.mapError f') := by
  cases h with
  | error he => exact .error (hf _ _ he)
  | ok ha => exact .ok ha

theorem mono {R' : α → α' → Prop} (h : Agree E R x x') (hR : ∀ a a', R a a' → R' a a') :
    Agree E R' x x' := by
  cases h with
  | error he => exact .error he
  | ok ha => exact .ok (hR _ _ ha)

/-- An outcome agrees with itself. -/
theorem refl {E : ε → ε → Prop} {R : α → α → Prop} (hE : ∀ e, E e e) (hR : ∀ a, R a a)
    (x : Except ε α) : Agree E R x x := by
  cases x with
  | error e => exact .error (hE e)
  | ok a => exact .ok (hR a)

theorem eq {x y : Except ε α} (h : Agree Eq Eq x y) : x = y := by
  cases h with
  | error he => exact congrArg _ he
  | ok ha => exact congrArg _ ha

end Agree

end Comprehension
