import Mathlib.Data.Nat.Notation
import Mathlib.Tactic.Ring

/-!
# Long division

The quotient by a divisor of one digit is made of two digits (`div_digits`), the lower of which comes
from a dividend whose quotient is a digit (`lower_digit_lt`). For a longer divisor the quotient is
estimated by that by the divisor with its lower digits cleared, and where these are few enough the
estimate is too large by one at most (`div_le_estimate`, `estimate_le`).
-/

set_option autoImplicit false
set_option relaxedAutoImplicit false

namespace Jungle.Lib

/-- The quotient of a number of two digits in base `b` by one digit. -/
theorem div_digits (b n₁ n₀ : ℕ) {d : ℕ} (hd : 0 < d) :
    (b * n₁ + n₀) / d = (b * (n₁ % d) + n₀) / d + b * (n₁ / d) := by
  have hdivide : b * n₁ + n₀ = b * (n₁ % d) + n₀ + d * (b * (n₁ / d)) := by
    conv_lhs => rw [← Nat.mod_add_div n₁ d]
    ring
  rw [hdivide, Nat.add_mul_div_left _ _ hd]

/-- The lower digit of the quotient is one. -/
theorem lower_digit_lt (n₁ : ℕ) {b n₀ d : ℕ} (hd : 0 < d) (hn : n₀ < b) :
    (b * (n₁ % d) + n₀) / d < b := by
  rw [Nat.div_lt_iff_lt_mul hd]
  have hmod : n₁ % d + 1 ≤ d := Nat.mod_lt n₁ hd
  calc b * (n₁ % d) + n₀ < b * (n₁ % d) + b := Nat.add_lt_add_left hn _
    _ = b * (n₁ % d + 1) := by ring
    _ ≤ b * d := Nat.mul_le_mul_left b hmod

/-- A smaller divisor gives no smaller quotient. -/
theorem div_le_estimate {n d e : ℕ} (he : 0 < e) (hle : e ≤ d) : n / d ≤ n / e :=
  Nat.div_le_div_left hle he

/-- A quotient by a divisor that is less by `r` is greater by one at most if the quotient is small
against `r`. -/
theorem estimate_le {n d e r : ℕ} (he : 0 < e) (hpos : 0 < d) (hd : d ≤ e + r) (hsmall : (n / d + 1) * r ≤ e) :
    n / e ≤ n / d + 1 := by
  have hless : n / e < n / d + 2 := by
    rw [Nat.div_lt_iff_lt_mul he]
    calc n < d * (n / d + 1) := Nat.lt_mul_div_succ n hpos
      _ ≤ (e + r) * (n / d + 1) := Nat.mul_le_mul_right _ hd
      _ = e * (n / d + 1) + (n / d + 1) * r := by ring
      _ ≤ e * (n / d + 1) + e := Nat.add_le_add_left hsmall _
      _ = (n / d + 2) * e := by ring
  omega

end Jungle.Lib
