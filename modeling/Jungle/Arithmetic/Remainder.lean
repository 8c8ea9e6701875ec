import Jungle.Arithmetic.Division

/-!
# The 64-bit remainder of Pintos

`lib/arithmetic.c`: `__umoddi3` and `__moddi3`. The remainder is computed in 64 bits and returned through
`umod64` and `smod64`, whose results have 32: what does not fit is lost.
-/

set_option autoImplicit false
set_option relaxedAutoImplicit false

namespace Jungle.Arithmetic

/-- `umod64 (n, d)` -/
def umod64 (n d : BitVec 64) : Option (BitVec 32) := do
  let q ← udiv64 n d
  return (n - d * q).setWidth 32

/-- `smod64 (n, d)` -/
def smod64 (n d : BitVec 64) : Option (BitVec 32) := do
  let q ← sdiv64 n d
  return (n - d * q).setWidth 32

/-- `__umoddi3 (n, d)` -/
def umoddi3 (n d : BitVec 64) : Option (BitVec 64) := (umod64 n d).map fun r ↦ r.setWidth 64

/-- `__moddi3 (n, d)` -/
def moddi3 (n d : BitVec 64) : Option (BitVec 64) := (smod64 n d).map fun r ↦ r.signExtend 64

variable {n d : BitVec 64}

/-- The remainder in 64 bits. -/
theorem toNat_sub_mul_div (n d : BitVec 64) : (n - d * (n / d)).toNat = n.toNat % d.toNat := by
  have hn := n.isLt
  have hle := Nat.mul_div_le n.toNat d.toNat
  have hsplit := Nat.div_add_mod n.toNat d.toNat
  rw [BitVec.toNat_sub, BitVec.toNat_mul, BitVec.toNat_udiv]
  generalize d.toNat * (n.toNat / d.toNat) = product at *
  omega

theorem umoddi3_eq (n : BitVec 64) (hd : d ≠ 0) :
    (umoddi3 n d).map BitVec.toNat = some (n.toNat % d.toNat % 2 ^ 32) := by
  unfold umoddi3 umod64
  dsimp only [Bind.bind]
  rw [udiv64_eq n hd, Option.bind_some]
  change some ((n - d * (n / d)).setWidth 32 |>.setWidth 64).toNat = _
  rw [BitVec.toNat_setWidth, BitVec.toNat_setWidth, toNat_sub_mul_div,
    Nat.mod_eq_of_lt (Nat.lt_trans (Nat.mod_lt _ (Nat.two_pow_pos 32)) (by decide))]

/-- The signed remainder in 64 bits, modulo `2 ^ 32`. -/
theorem toInt_sub_mul_sdiv (hproper : ¬(n = BitVec.intMin 64 ∧ d = -1)) :
    (n - d * n.sdiv d).toInt.bmod (2 ^ 32) = (n.toInt.tmod d.toInt).bmod (2 ^ 32) := by
  have hsplit : n.toInt - d.toInt * n.toInt.tdiv d.toInt = n.toInt.tmod d.toInt := by
    rw [Int.tmod_def]
  rw [BitVec.toInt_sub, BitVec.toInt_mul, Int.sub_bmod_bmod,
    BitVec.toInt_sdiv_of_ne_or_ne n d (not_and_or.mp hproper), hsplit,
    Int.bmod_bmod_of_dvd (by decide)]

theorem moddi3_eq (hd : d ≠ 0) (hproper : ¬(n = BitVec.intMin 64 ∧ d = -1)) :
    (moddi3 n d).map BitVec.toInt = some ((n.toInt.tmod d.toInt).bmod (2 ^ 32)) := by
  unfold moddi3 smod64
  dsimp only [Bind.bind]
  rw [sdiv64_eq n hd, Option.bind_some]
  change some ((n - d * n.sdiv d).setWidth 32 |>.signExtend 64).toInt = _
  rw [BitVec.toInt_signExtend_of_le (by decide), BitVec.toInt_setWidth, ← toInt_sub_mul_sdiv hproper,
    BitVec.toInt_eq_toNat_bmod (n - d * n.sdiv d), Int.bmod_bmod_of_dvd (by decide)]

/-- The remainders are exact as far as they fit in 32 bits. -/
theorem remainder_exact_iff (n d : BitVec 64) (hd : d ≠ 0) :
    ((umoddi3 n d).map BitVec.toNat = some (n.toNat % d.toNat) ↔ n.toNat % d.toNat < 2 ^ 32) ∧
      (¬(n = BitVec.intMin 64 ∧ d = -1) →
        ((moddi3 n d).map BitVec.toInt = some (n.toInt.tmod d.toInt) ↔
          -2 ^ 31 ≤ n.toInt.tmod d.toInt ∧ n.toInt.tmod d.toInt < 2 ^ 31)) := by
  refine ⟨?_, fun hproper ↦ ?_⟩
  · rw [umoddi3_eq n hd, Option.some.injEq]
    exact Nat.mod_eq_iff_lt (by decide)
  · rw [moddi3_eq hd hproper, Option.some.injEq]
    have hlower := Int.le_bmod (x := n.toInt.tmod d.toInt) (m := 2 ^ 32) (by decide)
    have hupper := Int.bmod_lt (x := n.toInt.tmod d.toInt) (m := 2 ^ 32) (by decide)
    refine ⟨fun heq ↦ ?_, fun ⟨hle, hlt⟩ ↦ Int.bmod_eq_of_le (by omega) (by omega)⟩
    rw [heq] at hlower hupper
    omega

/-- Remainders by `2 ^ 33`. -/
theorem remainder_exact_iff_large :
    ((umoddi3 0x100000005 0x200000000).map BitVec.toNat =
        some ((0x100000005 : BitVec 64).toNat % (0x200000000 : BitVec 64).toNat) ↔
      (0x100000005 : BitVec 64).toNat % (0x200000000 : BitVec 64).toNat < 2 ^ 32) ∧
      (¬((0x100000005 : BitVec 64) = BitVec.intMin 64 ∧ (0x200000000 : BitVec 64) = -1) →
        ((moddi3 0x100000005 0x200000000).map BitVec.toInt =
            some ((0x100000005 : BitVec 64).toInt.tmod (0x200000000 : BitVec 64).toInt) ↔
          -2 ^ 31 ≤ (0x100000005 : BitVec 64).toInt.tmod (0x200000000 : BitVec 64).toInt ∧
            (0x100000005 : BitVec 64).toInt.tmod (0x200000000 : BitVec 64).toInt < 2 ^ 31)) :=
  remainder_exact_iff 0x100000005 0x200000000 (by decide)

/-- `__umoddi3` returns 5 for the remainder of `2 ^ 32 + 5` by `2 ^ 33`. -/
theorem not_remainder_exact : ¬∀ n d : BitVec 64, d ≠ 0 →
    (umoddi3 n d).map BitVec.toNat = some (n.toNat % d.toNat) ∧
      (¬(n = BitVec.intMin 64 ∧ d = -1) →
        (moddi3 n d).map BitVec.toInt = some (n.toInt.tmod d.toInt)) := by
  intro hclaim
  have hexact := (hclaim 0x100000005 0x200000000 (by decide)).1
  rw [umoddi3_eq _ (by decide)] at hexact
  exact absurd hexact (by decide)

end Jungle.Arithmetic
