/-
When a computation that may throw returns.
-/
import Mathlib.Logic.Basic

namespace Except

variable {ε α β : Type} {x : Except ε α} {e : ε}

theorem bind_eq_ok {f : α → Except ε β} {y : β} : (x >>= f) = .ok y ↔ ∃ a, x = .ok a ∧ f a = .ok y := by
  cases x with
  | error e => simp [bind, Except.bind]
  | ok a => simp [bind, Except.bind]

theorem bind_ne_error {f : α → Except ε β} (hx : x ≠ .error e) (hf : ∀ a, x = .ok a → f a ≠ .error e) :
    (x >>= f) ≠ .error e := by
  cases x with
  | error e' => exact fun h => hx (by simpa [bind, Except.bind] using h)
  | ok a => exact hf a rfl

theorem map_eq_ok {f : α → β} {y : β} : (f <$> x) = .ok y ↔ ∃ a, x = .ok a ∧ f a = y := by
  cases x with
  | error e => simp [Functor.map, Except.map]
  | ok a => simp [Functor.map, Except.map]

theorem map_ne_error {f : α → β} (hx : x ≠ .error e) : (f <$> x) ≠ .error e := by
  cases x with
  | error e' => exact fun h => hx (by simpa [Functor.map, Except.map] using h)
  | ok a => nofun

theorem pure_eq_ok {x y : α} : (pure x : Except ε α) = .ok y ↔ x = y := by
  simp [pure, Except.pure]

end Except
