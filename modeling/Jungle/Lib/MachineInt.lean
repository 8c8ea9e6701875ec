import Mathlib.Data.Int.Notation

/-!
# Fixed-width signed integers

`int32` wraps an integer to the range of a 32-bit two's complement `int`, from `intMin` to
`intMax`. It leaves what is in the range alone.
-/

set_option autoImplicit false
set_option relaxedAutoImplicit false

namespace Jungle.Lib

/-- The greatest 32-bit `int`. -/
def intMax : ℤ := 2147483647

/-- The least 32-bit `int`. -/
def intMin : ℤ := -2147483648

/-- The value of an integer stored in a 32-bit `int`. -/
def int32 (x : ℤ) : ℤ := (x - intMin) % 4294967296 + intMin

theorem int32_of_mem {x : ℤ} (hmin : intMin ≤ x) (hmax : x ≤ intMax) : int32 x = x := by
  unfold int32 intMin intMax at *
  omega

theorem int32_le (x : ℤ) : int32 x ≤ intMax := by
  unfold int32 intMin intMax
  omega

/-- Only the value of a summand modulo the width counts. -/
theorem int32_int32_add (x y : ℤ) : int32 (int32 x + y) = int32 (x + y) := by
  unfold int32 intMin
  omega

theorem int32_intMax_succ : int32 (intMax + 1) = intMin := by decide

end Jungle.Lib
