import Jungle.Lib.ByteMemory

/-!
# `memmove`

`memmove` of `pintos/lib/string.c`. The loops copy one byte after the other, upwards or downwards, and
move the pointers. A call faults, with `none`, where an `ASSERT` fails. The bytes are always moved as they
should be (`memmove_moves`), but it is the moved pointer that is returned.
-/

set_option autoImplicit false
set_option relaxedAutoImplicit false

namespace Jungle.Strings

open Jungle.Lib

/-- `while (size-- > 0) *dst++ = *src++;`, with the pointer `dst` and the memory after it. -/
def copyForward : ℕ → Bytes → ℕ → ℕ → ℕ × Bytes
  | 0, m, dst, _ => (dst, m)
  | size + 1, m, dst, src => copyForward size (Function.update m dst (m src)) (dst + 1) (src + 1)

/-- `while (size-- > 0) *--dst = *--src;`, with the pointer `dst` and the memory after it. -/
def copyBackward : ℕ → Bytes → ℕ → ℕ → ℕ × Bytes
  | 0, m, dst, _ => (dst, m)
  | size + 1, m, dst, src =>
    copyBackward size (Function.update m (dst - 1) (m (src - 1))) (dst - 1) (src - 1)

/-- `memmove (dst_, src_, size)`: what it returns, and the memory. -/
def memmove (m : Bytes) (dst src size : ℕ) : Option (ℕ × Bytes) :=
  if ¬(dst ≠ 0 ∨ size = 0) then none
  else if ¬(src ≠ 0 ∨ size = 0) then none
  else if dst < src then some (copyForward size m dst src)
  else some (copyBackward size m (dst + size) (src + size))

/-- The bytes from `src` on have been moved to `dst`, and no other byte has changed. -/
structure Moves (m m' : Bytes) (dst src size : ℕ) : Prop where
  moved : ∀ i < size, m' (dst + i) = m (src + i)
  same : ∀ x, ¬(dst ≤ x ∧ x < dst + size) → m' x = m x

variable {m m' : Bytes} {dst src size : ℕ}

theorem copyForward_eq : ∀ (size : ℕ) (m : Bytes) (dst src : ℕ),
    copyForward size m dst src = (dst + size, m.copyUp dst src size)
  | 0, _, _, _ => rfl
  | size + 1, m, dst, src => by
    rw [copyForward, copyForward_eq, Bytes.copyUp, Nat.add_assoc, Nat.add_comm 1]

theorem copyBackward_eq : ∀ (size : ℕ) (m : Bytes) (dst src : ℕ),
    copyBackward size m dst src = (dst - size, m.copyDown dst src size)
  | 0, _, _, _ => rfl
  | size + 1, m, dst, src => by
    rw [copyBackward, copyBackward_eq, Bytes.copyDown, Nat.sub_sub, Nat.add_comm 1]

theorem moves_copy (m : Bytes) (dst src size : ℕ) : Moves m (m.copy dst m src size) dst src size := by
  refine ⟨fun i hi ↦ ?_, fun x hx ↦ Bytes.copy_of_not_mem hx⟩
  rw [Bytes.copy_of_mem ⟨Nat.le_add_right dst i, Nat.add_lt_add_left hi dst⟩, Nat.add_sub_cancel_left]

/-- `memmove` moves the bytes, and returns where it has stopped. -/
theorem memmove_eq (hnull : size = 0 ∨ dst ≠ 0 ∧ src ≠ 0) : memmove m dst src size =
    some (if dst < src then dst + size else dst, m.copy dst m src size) := by
  unfold memmove
  rw [if_neg (by tauto), if_neg (by tauto), copyForward_eq, copyBackward_eq]
  split_ifs with hless
  · rw [Bytes.copyUp_eq (Or.inl hless.le)]
  · rw [Bytes.copyDown_eq (Or.inl (Nat.le_of_not_lt hless)), Nat.add_sub_cancel]

/-- `memmove` moves the bytes in every case. -/
theorem memmove_moves (hnull : size = 0 ∨ dst ≠ 0 ∧ src ≠ 0) :
    ∃ p m', memmove m dst src size = some (p, m') ∧ Moves m m' dst src size :=
  ⟨_, _, memmove_eq hnull, moves_copy m dst src size⟩

/-- `memmove` moves the bytes and returns the destination, unless it moves some of them downwards. -/
theorem memmove_iff (m : Bytes) (dst src size : ℕ) :
    (∃ m', memmove m dst src size = some (dst, m') ∧ Moves m m' dst src size) ↔
      size = 0 ∨ dst ≠ 0 ∧ src ≠ 0 ∧ src ≤ dst := by
  by_cases hnull : size = 0 ∨ dst ≠ 0 ∧ src ≠ 0
  · rw [memmove_eq hnull]
    constructor
    · rintro ⟨m', heq, -⟩
      have hreturn := (Prod.mk.inj (Option.some.inj heq)).1
      split_ifs at hreturn with hless
      · omega
      · exact hnull.imp_right fun hboth ↦ ⟨hboth.1, hboth.2, Nat.le_of_not_lt hless⟩
    · intro hholds
      refine ⟨_, congrArg some (Prod.ext ?_ rfl), moves_copy m dst src size⟩
      dsimp only
      split_ifs with hless <;> omega
  · refine iff_of_false (fun ⟨m', heq, _⟩ ↦ ?_) (by tauto)
    unfold memmove at heq
    split_ifs at heq with hdst hsrc
    · tauto
    · tauto

/-- `memmove` of a byte to a lower address returns the address behind it. -/
theorem not_memmove_returns_dst : ¬∀ (m : Bytes) (dst src size : ℕ), dst ≠ 0 → src ≠ 0 →
    ∃ m', memmove m dst src size = some (dst, m') ∧ Moves m m' dst src size := by
  intro hclaim
  obtain ⟨m', heq, -⟩ := hclaim (fun _ ↦ 0) 1 2 1 (by decide) (by decide)
  rw [memmove_eq (Or.inr ⟨by decide, by decide⟩)] at heq
  exact absurd (Prod.mk.inj (Option.some.inj heq)).1 (by decide)

end Jungle.Strings
