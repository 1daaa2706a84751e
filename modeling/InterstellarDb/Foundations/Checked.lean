import Mathlib.Algebra.Order.Monoid.Canonical.Defs
import Mathlib.Algebra.Group.Nat.Defs

/-!
# Checked unsigned arithmetic

Arithmetic on words of `w` bits that never wraps: an operation whose exact result does not fit has
no result. A computation in `Option` over these operations has a result when none of its steps
overflows, and then it is that of exact arithmetic.
-/

namespace InterstellarDb.Checked

/-- `a + b`, unless it is `2 ^ w` or more. -/
def add (w a b : ℕ) : Option ℕ := if a + b < 2 ^ w then some (a + b) else none

/-- `a * b`, unless it is `2 ^ w` or more. -/
def mul (w a b : ℕ) : Option ℕ := if a * b < 2 ^ w then some (a * b) else none

/-- `a - b`, unless it is negative. -/
def sub (a b : ℕ) : Option ℕ := if b ≤ a then some (a - b) else none

/-- A distance by which a word of `w` bits may be shifted. -/
def shift (w s : ℕ) : Option ℕ := if s < w then some s else none

theorem add_eq_some {w a b c : ℕ} : add w a b = some c ↔ a + b < 2 ^ w ∧ a + b = c := by
  simp [add]

theorem mul_eq_some {w a b c : ℕ} : mul w a b = some c ↔ a * b < 2 ^ w ∧ a * b = c := by
  simp [mul]

theorem sub_eq_some {a b c : ℕ} : sub a b = some c ↔ b ≤ a ∧ a - b = c := by
  simp [sub]

theorem shift_eq_some {w s t : ℕ} : shift w s = some t ↔ s < w ∧ s = t := by
  simp [shift]

end InterstellarDb.Checked
