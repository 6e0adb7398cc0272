import Mathlib.Logic.Basic

/-!
# How a computation that may fail ended

Inversion of the operations on `Except`: what is known when a sequence succeeded or failed.
-/

namespace Except

variable {ε ε' α β : Type}

theorem bind_eq_ok {x : Except ε α} {f : α → Except ε β} {b : β} :
    (x >>= f) = .ok b ↔ ∃ a, x = .ok a ∧ f a = .ok b := by
  cases x <;> simp [bind, Except.bind]

theorem bind_eq_error {x : Except ε α} {f : α → Except ε β} {e : ε} :
    (x >>= f) = .error e ↔ x = .error e ∨ ∃ a, x = .ok a ∧ f a = .error e := by
  cases x <;> simp [bind, Except.bind]

@[simp] theorem ok_bind {a : α} {f : α → Except ε β} : (.ok a >>= f) = f a := rfl

@[simp] theorem error_bind {e : ε} {f : α → Except ε β} : (.error e >>= f) = .error e := rfl

@[simp] theorem pure_eq_ok {a : α} : (pure a : Except ε α) = .ok a := rfl

@[simp] theorem mapError_ok {f : ε → ε'} {a : α} : (.ok a : Except ε α).mapError f = .ok a := rfl

@[simp] theorem mapError_error {f : ε → ε'} {e : ε} :
    (.error e : Except ε α).mapError f = .error (f e) := rfl

@[simp] theorem map_ok' {f : α → β} {a : α} : (.ok a : Except ε α).map f = .ok (f a) := rfl

@[simp] theorem map_error' {f : α → β} {e : ε} : (.error e : Except ε α).map f = .error e := rfl

theorem toOption_eq_some {x : Except ε α} {a : α} : x.toOption = some a ↔ x = .ok a := by
  cases x <;> simp [Except.toOption]

end Except
