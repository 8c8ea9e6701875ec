import Mathlib.Data.Nat.Notation
import Mathlib.Tactic.Ring.RingNF

/-!
# Memory of bytes

A memory of bytes with little-endian numbers in it. A number stored is the number loaded, reduced to
the bytes it has; what is loaded depends on these bytes only.
-/

set_option autoImplicit false
set_option relaxedAutoImplicit false

namespace Jungle.Lib

/-- The bytes of a memory, by their addresses. -/
abbrev Bytes := ℕ → UInt8

namespace Bytes

variable {m m' : Bytes} {a b n k x v : ℕ}

/-- The number in so many bytes from an address on. -/
def load (m : Bytes) : ℕ → ℕ → ℕ
  | _, 0 => 0
  | a, n + 1 => (m a).toNat + 256 * load m (a + 1) n

/-- Stores a number in so many bytes from an address on; what does not fit is lost. -/
def store (m : Bytes) (a n v : ℕ) : Bytes := fun x ↦
  if a ≤ x ∧ x < a + n then UInt8.ofNat (v / 256 ^ (x - a)) else m x

/-- Copies so many bytes of a memory to an address. -/
def copy (m : Bytes) (dst : ℕ) (source : Bytes) (src n : ℕ) : Bytes := fun x ↦
  if dst ≤ x ∧ x < dst + n then source (src + (x - dst)) else m x

theorem load_congr (h : ∀ x, a ≤ x → x < a + n → m' x = m x) : m'.load a n = m.load a n := by
  induction n generalizing a with
  | zero => rfl
  | succ n ih =>
    rw [load, load, h a (Nat.le_refl a) (by omega), ih fun x hle hlt ↦ h x (by omega) (by omega)]

theorem load_lt (m : Bytes) (a n : ℕ) : m.load a n < 256 ^ n := by
  induction n generalizing a with
  | zero => exact Nat.one_pos
  | succ n ih =>
    have hbyte := (m a).toNat_lt
    have hrest := ih (a + 1)
    rw [load, Nat.pow_succ]
    omega

/-- Bytes that are those of a number. -/
theorem load_of_digits (h : ∀ i < n, m (a + i) = UInt8.ofNat (v / 256 ^ i)) :
    m.load a n = v % 256 ^ n := by
  induction n generalizing a v with
  | zero => exact (Nat.mod_one v).symm
  | succ n ih =>
    have hrest : m.load (a + 1) n = v / 256 % 256 ^ n := by
      refine ih fun i hi ↦ ?_
      have hbyte := h (i + 1) (by omega)
      rwa [Nat.pow_succ', ← Nat.div_div_eq_div_mul, ← Nat.add_assoc, Nat.add_right_comm] at hbyte
    have hfirst : (m a).toNat = v % 256 := by
      have hbyte := h 0 (Nat.zero_lt_succ n)
      rw [Nat.add_zero, Nat.pow_zero, Nat.div_one] at hbyte
      rw [hbyte, UInt8.toNat_ofNat']
    rw [load, hfirst, hrest, Nat.pow_succ', Nat.mod_mul]

/-- The bits of a number are those of its bytes. -/
theorem load_testBit (m : Bytes) (a : ℕ) {n t : ℕ} (ht : t < 8 * n) :
    (m.load a n).testBit t = (m (a + t / 8)).toNat.testBit (t % 8) := by
  induction n generalizing a t with
  | zero => omega
  | succ n ih =>
    have hbyte : (m a).toNat < 2 ^ 8 := (m a).toNat_lt
    have hload : m.load a (n + 1) = 2 ^ 8 * m.load (a + 1) n + (m a).toNat :=
      Nat.add_comm ..
    rw [hload, Nat.testBit_two_pow_mul_add _ hbyte]
    split_ifs with hlt
    · rw [Nat.div_eq_of_lt hlt, Nat.mod_eq_of_lt hlt, Nat.add_zero]
    · have haddr : a + 1 + (t - 8) / 8 = a + t / 8 := by omega
      have hbit : (t - 8) % 8 = t % 8 := by omega
      rw [ih (a + 1) (by omega), haddr, hbit]

theorem store_of_not_mem (h : ¬(a ≤ x ∧ x < a + n)) : m.store a n v x = m x :=
  if_neg h

/-- A number that has been stored. -/
@[simp] theorem load_store_self : (m.store a n v).load a n = v % 256 ^ n := by
  refine load_of_digits fun i hi ↦ ?_
  rw [store, if_pos ⟨Nat.le_add_right a i, by omega⟩, Nat.add_sub_cancel_left]

/-- A number elsewhere. -/
theorem load_store_of_apart (h : b + k ≤ a ∨ a + n ≤ b) :
    (m.store a n v).load b k = m.load b k :=
  load_congr fun _ _ _ ↦ store_of_not_mem (by omega)

theorem copy_of_not_mem {source : Bytes} {src : ℕ} (h : ¬(a ≤ x ∧ x < a + n)) :
    m.copy a source src n x = m x :=
  if_neg h

theorem copy_of_mem {source : Bytes} {src : ℕ} (h : a ≤ x ∧ x < a + n) :
    m.copy a source src n x = source (src + (x - a)) :=
  if_pos h

@[simp] theorem copy_zero (m : Bytes) (a : ℕ) (source : Bytes) (src : ℕ) :
    m.copy a source src 0 = m := by
  funext x
  exact copy_of_not_mem (by omega)

/-- Copying in two parts. -/
theorem copy_copy (m : Bytes) (a : ℕ) (source : Bytes) (src n k : ℕ) :
    (m.copy a source src n).copy (a + n) source (src + n) k = m.copy a source src (n + k) := by
  funext x
  simp only [copy]
  split_ifs with hsecond hboth hfirst hboth
  · rw [Nat.add_assoc, show n + (x - (a + n)) = x - a by omega]
  · omega
  · rfl
  · omega
  · omega
  · rfl

/-- Copies so many bytes within a memory, one by one in ascending order. -/
def copyUp (m : Bytes) : ℕ → ℕ → ℕ → Bytes
  | _, _, 0 => m
  | dst, src, n + 1 => copyUp (Function.update m dst (m src)) (dst + 1) (src + 1) n

/-- Ascending copies to lower addresses read each byte before it is overwritten. -/
theorem copyUp_eq {dst src : ℕ} (h : dst ≤ src ∨ src + n ≤ dst) :
    m.copyUp dst src n = m.copy dst m src n := by
  induction n generalizing m dst src with
  | zero => exact (copy_zero m dst m src).symm
  | succ n ih =>
    rw [copyUp, ih (by omega)]
    funext x
    simp only [copy, Function.update_apply]
    split_ifs <;> first | rfl | omega | (congr 1; omega)

/-- Copies so many bytes within a memory, one by one in descending order, to below the given addresses. -/
def copyDown (m : Bytes) : ℕ → ℕ → ℕ → Bytes
  | _, _, 0 => m
  | dst, src, n + 1 =>
    copyDown (Function.update m (dst - 1) (m (src - 1))) (dst - 1) (src - 1) n

/-- Descending copies to higher addresses read each byte before it is overwritten. -/
theorem copyDown_eq {dst src : ℕ} (h : src ≤ dst ∨ dst + n ≤ src) :
    m.copyDown (dst + n) (src + n) n = m.copy dst m src n := by
  induction n generalizing m with
  | zero => exact (copy_zero m dst m src).symm
  | succ n ih =>
    have hdst : dst + (n + 1) - 1 = dst + n := rfl
    have hsrc : src + (n + 1) - 1 = src + n := rfl
    rw [copyDown, hdst, hsrc, ih (by omega)]
    funext x
    simp only [copy, Function.update_apply]
    split_ifs <;> first | rfl | omega | (congr 1; omega)

end Bytes

end Jungle.Lib
