import WatchExpr.Eval.Error
import WatchExpr.Proofs.Failure
import Mathlib.Tactic.Common

/-!
# Failures by their codes

Which code a computation fails under, and computations that agree but for the message of a failure.
-/

namespace WatchExpr

variable {α β : Type}

/-- A computation fails under a given code. -/
def FailsWith (code : Code) (x : Except EvalError α) : Prop :=
  ∃ failure, x = .error failure ∧ failure.code? = some code

namespace FailsWith

variable {code : Code}

@[simp] theorem error_iff {failure : EvalError} :
    FailsWith code (.error failure : Except EvalError α) ↔ failure.code? = some code := by
  constructor
  · rintro ⟨_, ⟨⟩, h⟩
    exact h
  · exact fun h => ⟨failure, rfl, h⟩

@[simp] theorem not_ok (a : α) : ¬ FailsWith code (.ok a : Except EvalError α) := by
  rintro ⟨_, ⟨⟩, -⟩

theorem ne_ok {x : Except EvalError α} (h : FailsWith code x) (a : α) : x ≠ .ok a := by
  rintro rfl
  exact not_ok a h

/-- A step fails so, or it succeeds and what follows it does. -/
theorem bind_iff {x : Except EvalError α} {f : α → Except EvalError β} :
    FailsWith code (x >>= f) ↔
      FailsWith code x ∨ ∃ a, x = .ok a ∧ FailsWith code (f a) := by
  cases x with
  | error e => simp [bind, Except.bind]
  | ok a => simp [bind, Except.bind]

end FailsWith

/-- Two computations yield the same, or both fail under the same code. -/
def SameUpToMessage (x y : Except EvalError α) : Prop :=
  x.mapError EvalError.code? = y.mapError EvalError.code?

namespace SameUpToMessage

variable {x y z : Except EvalError α}

theorem refl (x : Except EvalError α) : SameUpToMessage x x := rfl

theorem symm (h : SameUpToMessage x y) : SameUpToMessage y x := Eq.symm h

theorem trans (h : SameUpToMessage x y) (h' : SameUpToMessage y z) : SameUpToMessage x z :=
  Eq.trans h h'

theorem error {e e' : EvalError} (h : e.code? = e'.code?) :
    SameUpToMessage (.error e : Except EvalError α) (.error e') :=
  congrArg Except.error h

theorem failsWith {code : Code} (h : SameUpToMessage x y) (hy : FailsWith code y) :
    FailsWith code x := by
  obtain ⟨e', rfl, hcode⟩ := hy
  cases x with
  | error e => exact ⟨e, rfl, (Except.error.inj h).trans hcode⟩
  | ok a => cases h

theorem bind (h : SameUpToMessage x y) {f g : α → Except EvalError β}
    (hfg : ∀ a, x = .ok a → SameUpToMessage (f a) (g a)) :
    SameUpToMessage (x >>= f) (y >>= g) := by
  cases x with
  | error e =>
      cases y with
      | error e' => exact error (Except.error.inj h)
      | ok b => cases h
  | ok a =>
      cases y with
      | error e' => cases h
      | ok b =>
          cases h
          exact hfg a rfl

end SameUpToMessage

theorem FailsWith.same {code : Code} {x y : Except EvalError α} (hx : FailsWith code x)
    (hy : FailsWith code y) : SameUpToMessage x y := by
  obtain ⟨e, rfl, he⟩ := hx
  obtain ⟨e', rfl, he'⟩ := hy
  exact .error (he.trans he'.symm)

end WatchExpr
