import Mathlib.Data.Nat.Notation
import Mathlib.Logic.Function.Basic

/-!
# Memory of words

A memory of 64-bit words at byte addresses, for programs that access it in aligned words.
-/

set_option autoImplicit false
set_option relaxedAutoImplicit false

namespace Jungle.Lib

/-- The words of a memory, by their byte addresses. -/
abbrev Memory := ℕ → BitVec 64

namespace Memory

/-- Writes a word. -/
def write (mem : Memory) (a : ℕ) (w : BitVec 64) : Memory := Function.update mem a w

@[simp] theorem write_self (mem : Memory) (a : ℕ) (w : BitVec 64) : mem.write a w a = w :=
  Function.update_self ..

theorem write_of_ne (mem : Memory) {a b : ℕ} (h : b ≠ a) (w : BitVec 64) :
    mem.write a w b = mem b :=
  Function.update_of_ne h ..

/-- Sets the `size` bytes from an address on, which are whole words, to those of a word. -/
def fill (mem : Memory) (a size : ℕ) (w : BitVec 64) : Memory :=
  fun b ↦ if a ≤ b ∧ b < a + size then w else mem b

theorem fill_of_not_mem (mem : Memory) {a size b : ℕ} (h : ¬(a ≤ b ∧ b < a + size))
    (w : BitVec 64) : mem.fill a size w b = mem b :=
  if_neg h

end Memory

end Jungle.Lib
