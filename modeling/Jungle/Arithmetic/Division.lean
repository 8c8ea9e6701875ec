import Jungle.Lib.LongDivision
import Mathlib.Data.Int.Notation

/-!
# The 64-bit division of Pintos

`lib/arithmetic.c`: `__udivdi3` and `__divdi3`, on bit vectors. The `divl` instruction traps, with
`none`, where its quotient does not fit in 32 bits. For a divisor below `2 ^ 32` the quotient is that of
long division; for a greater one it is estimated from the upper half of the normalised divisor
(`estimate_eq`) and corrected.
-/

set_option autoImplicit false
set_option relaxedAutoImplicit false

namespace Jungle.Arithmetic

open Jungle.Lib

/-- The `divl` instruction: the quotient of `n1:n0` by `d`. -/
def divlInsn (n1 n0 d : BitVec 32) : Option (BitVec 32) :=
  if d = 0 ∨ 2 ^ 32 ≤ (n1 ++ n0).toNat / d.toNat then none
  else some (BitVec.ofNat 32 ((n1 ++ n0).toNat / d.toNat))

/-- `divl (n, d)` -/
def divl (n : BitVec 64) (d : BitVec 32) : Option (BitVec 32) :=
  let n1 := (n >>> 32).setWidth 32
  let n0 := n.setWidth 32
  divlInsn n1 n0 d

/-- `if (x <= limit) { n += k; x <<= k; }` -/
def nlzStep (limit : BitVec 32) (k : ℕ) : ℕ × BitVec 32 → ℕ × BitVec 32
  | (n, x) => if x ≤ limit then (n + k, x <<< k) else (n, x)

/-- `nlz (x)` -/
def nlz (x : BitVec 32) : ℕ :=
  let (n, x) := nlzStep 0x0000FFFF 16 (0, x)
  let (n, x) := nlzStep 0x00FFFFFF 8 (n, x)
  let (n, x) := nlzStep 0x0FFFFFFF 4 (n, x)
  let (n, x) := nlzStep 0x3FFFFFFF 2 (n, x)
  if x ≤ 0x7FFFFFFF then n + 1 else n

/-- `udiv64 (n, d)` -/
def udiv64 (n d : BitVec 64) : Option (BitVec 64) :=
  if d >>> 32 = 0 then do
    let b : BitVec 64 := (1 : BitVec 64) <<< 32
    let n1 : BitVec 32 := (n >>> 32).setWidth 32
    let n0 : BitVec 32 := n.setWidth 32
    let d0 : BitVec 32 := d.setWidth 32
    let q ← divl (b * (n1 % d0).setWidth 64 + n0.setWidth 64) d0
    return q.setWidth 64 + b * (n1 / d0).setWidth 64
  else if n < d then some 0
  else do
    let d1 : BitVec 32 := (d >>> 32).setWidth 32
    let s := nlz d1
    let q ← divl (n >>> 1) (((d <<< s) >>> 32).setWidth 32)
    let q : BitVec 64 := (q >>> (31 - s)).setWidth 64
    return if n - (q - 1) * d < d then q - 1 else q

/-- `sdiv64 (n, d)` -/
def sdiv64 (n d : BitVec 64) : Option (BitVec 64) := do
  let nAbs := if 0 ≤ n.toInt then n else -n
  let dAbs := if 0 ≤ d.toInt then d else -d
  let qAbs ← udiv64 nAbs dAbs
  return if decide (n.toInt < 0) == decide (d.toInt < 0) then qAbs else -qAbs

/-- `__divdi3 (n, d)` -/
def divdi3 (n d : BitVec 64) : Option (BitVec 64) := sdiv64 n d

/-- `__udivdi3 (n, d)` -/
def udivdi3 (n d : BitVec 64) : Option (BitVec 64) := udiv64 n d

/-! ### `divl` and `nlz` -/

theorem append_halves (n : BitVec 64) :
    (n >>> 32).setWidth 32 ++ (n.setWidth 32 : BitVec 32) = n := by
  ext i hi
  simp only [BitVec.getElem_append, BitVec.getElem_setWidth, BitVec.getLsbD_ushiftRight]
  split
  · rw [BitVec.getLsbD_eq_getElem]
  · rw [BitVec.getLsbD_eq_getElem (by omega)]
    congr 1
    omega

/-- `divl` divides if the quotient fits in 32 bits. -/
theorem divl_eq {n : BitVec 64} {d : BitVec 32} (hd : 0 < d.toNat)
    (hfits : n.toNat / d.toNat < 2 ^ 32) :
    divl n d = some (BitVec.ofNat 32 (n.toNat / d.toNat)) := by
  have hzero : d ≠ 0 := by
    rintro rfl
    exact absurd hd (Nat.lt_irrefl 0)
  unfold divl divlInsn
  dsimp only
  rw [append_halves, if_neg (not_or.mpr ⟨hzero, Nat.not_le_of_lt hfits⟩)]

/-- `y` is `x` moved to the left by `n` bits, none of which is lost, and has at least `a` bits below
its first one. -/
structure Shifted (x : BitVec 32) (a : ℕ) (s : ℕ × BitVec 32) : Prop where
  moved : s.2.toNat = x.toNat * 2 ^ s.1
  large : 2 ^ a ≤ s.2.toNat

theorem nlzStep_spec (limit : BitVec 32) (k : ℕ) {x : BitVec 32} {s : ℕ × BitVec 32} (hk : k ≤ 16)
    (hlimit : limit.toNat + 1 = 2 ^ (32 - k)) (h : Shifted x (32 - 2 * k) s) :
    Shifted x (32 - k) (nlzStep limit k s) ∧ (nlzStep limit k s).1 ≤ s.1 + k := by
  obtain ⟨n, y⟩ := s
  unfold nlzStep
  dsimp only
  by_cases hle : y ≤ limit
  · rw [if_pos hle]
    have hsmall : y.toNat < 2 ^ (32 - k) := by
      have hnat := BitVec.le_def.mp hle
      omega
    have hsum : 2 ^ (32 - k) * 2 ^ k = 2 ^ 32 := by
      rw [← Nat.pow_add]
      congr 1
      omega
    have hshift : (y <<< k).toNat = y.toNat * 2 ^ k := by
      rw [BitVec.toNat_shiftLeft, Nat.shiftLeft_eq, Nat.mod_eq_of_lt]
      exact hsum ▸ Nat.mul_lt_mul_of_pos_right hsmall (Nat.two_pow_pos k)
    refine ⟨⟨?_, ?_⟩, Nat.le_refl _⟩
    · rw [hshift, h.moved, Nat.mul_assoc, ← Nat.pow_add]
    · have hpow : 2 ^ (32 - k) = 2 ^ (32 - 2 * k) * 2 ^ k := by
        rw [← Nat.pow_add]
        congr 1
        omega
      rw [hshift, hpow]
      exact Nat.mul_le_mul_right _ h.large
  · rw [if_neg hle]
    refine ⟨⟨h.moved, ?_⟩, Nat.le_add_right n k⟩
    have hnat := mt BitVec.le_def.mpr hle
    dsimp only
    omega

/-- `nlz` is the number of bits to the left of the first one. -/
theorem nlz_spec {x : BitVec 32} (hx : 0 < x.toNat) :
    nlz x ≤ 31 ∧ 2 ^ 31 ≤ x.toNat * 2 ^ nlz x ∧ x.toNat * 2 ^ nlz x < 2 ^ 32 := by
  have h₀ : Shifted x (32 - 2 * 16) (0, x) := ⟨(Nat.mul_one _).symm, hx⟩
  obtain ⟨h₁, hle₁⟩ := nlzStep_spec 0x0000FFFF 16 (by decide) (by decide) h₀
  obtain ⟨h₂, hle₂⟩ := nlzStep_spec 0x00FFFFFF 8 (by decide) (by decide) h₁
  obtain ⟨h₃, hle₃⟩ := nlzStep_spec 0x0FFFFFFF 4 (by decide) (by decide) h₂
  obtain ⟨h₄, hle₄⟩ := nlzStep_spec 0x3FFFFFFF 2 (by decide) (by decide) h₃
  obtain ⟨h₅, hle₅⟩ := nlzStep_spec 0x7FFFFFFF 1 (by decide) (by decide) h₄
  have hlast : ∀ s : ℕ × BitVec 32, (nlzStep 0x7FFFFFFF 1 s).1 =
      if s.2 ≤ 0x7FFFFFFF then s.1 + 1 else s.1 := by
    rintro ⟨n, y⟩
    unfold nlzStep
    dsimp only
    split_ifs <;> rfl
  have heq : nlz x = (nlzStep 0x7FFFFFFF 1 (nlzStep 0x3FFFFFFF 2 (nlzStep 0x0FFFFFFF 4
      (nlzStep 0x00FFFFFF 8 (nlzStep 0x0000FFFF 16 (0, x)))))).1 := (hlast _).symm
  rw [heq, ← h₅.moved]
  exact ⟨by omega, h₅.large, BitVec.isLt _⟩

/-! ### Unsigned division -/

theorem toNat_high (n : BitVec 64) :
    ((n >>> 32).setWidth 32 : BitVec 32).toNat = n.toNat / 2 ^ 32 := by
  have hlt := n.isLt
  rw [BitVec.toNat_setWidth, BitVec.toNat_ushiftRight, Nat.shiftRight_eq_div_pow]
  omega

theorem toNat_low (n : BitVec 64) : (n.setWidth 32 : BitVec 32).toNat = n.toNat % 2 ^ 32 :=
  BitVec.toNat_setWidth 32 n

theorem high_eq_zero_iff (d : BitVec 64) : d >>> 32 = 0 ↔ d.toNat < 2 ^ 32 := by
  have hzero : (0 : BitVec 64).toNat = 0 := rfl
  rw [← BitVec.toNat_inj, BitVec.toNat_ushiftRight, Nat.shiftRight_eq_div_pow, hzero]
  omega

theorem toNat_base : ((1 : BitVec 64) <<< 32).toNat = 2 ^ 32 := by decide

/-- `udiv64` divides by a divisor below `2 ^ 32`. -/
theorem udiv64_small {n d : BitVec 64} (hpos : 0 < d.toNat) (hd : d.toNat < 2 ^ 32) :
    udiv64 n d = some (n / d) := by
  have hlow : (d.setWidth 32 : BitVec 32).toNat = d.toNat :=
    (toNat_low d).trans (Nat.mod_eq_of_lt hd)
  have hdigit := Nat.mod_lt n.toNat (Nat.two_pow_pos 32)
  have hless := Nat.mod_lt (n.toNat / 2 ^ 32) hpos
  have hdividend : ((1 : BitVec 64) <<< 32 * ((n >>> 32).setWidth 32 % (d.setWidth 32) :
      BitVec 32).setWidth 64 + (n.setWidth 32 : BitVec 32).setWidth 64).toNat =
      2 ^ 32 * (n.toNat / 2 ^ 32 % d.toNat) + n.toNat % 2 ^ 32 := by
    rw [BitVec.toNat_add, BitVec.toNat_mul, BitVec.toNat_setWidth, BitVec.toNat_setWidth,
      BitVec.toNat_umod, toNat_high, hlow, toNat_low, toNat_base]
    omega
  have hfits := lower_digit_lt (n.toNat / 2 ^ 32) hpos hdigit
  have hdigits := div_digits (2 ^ 32) (n.toNat / 2 ^ 32) (n.toNat % 2 ^ 32) hpos
  have hupper : ((n >>> 32).setWidth 32 / (d.setWidth 32) : BitVec 32).toNat =
      n.toNat / 2 ^ 32 / d.toNat := by
    rw [BitVec.toNat_udiv, toNat_high, hlow]
  have hquotient := (n / d).isLt
  rw [Nat.div_add_mod] at hdigits
  rw [BitVec.toNat_udiv, hdigits] at hquotient
  have hdivl := divl_eq (hlow ▸ hpos) (by rw [hdividend, hlow]; exact hfits)
  rw [hdividend, hlow] at hdivl
  unfold udiv64
  rw [if_pos ((high_eq_zero_iff d).mpr hd)]
  dsimp only [Bind.bind]
  rw [hdivl, Option.bind_some]
  refine congrArg some (BitVec.eq_of_toNat_eq ?_)
  rw [BitVec.toNat_add, BitVec.toNat_mul, BitVec.toNat_setWidth, BitVec.toNat_ofNat,
    BitVec.toNat_setWidth, hupper, toNat_base, BitVec.toNat_udiv, hdigits]
  generalize (2 ^ 32 * (n.toNat / 2 ^ 32 % d.toNat) + n.toNat % 2 ^ 32) / d.toNat = low at *
  generalize n.toNat / 2 ^ 32 / d.toNat = high at *
  omega

theorem pow_split {s : ℕ} (hs : s ≤ 31) : 2 ^ 32 = 2 ^ (32 - s) * 2 ^ s := by
  rw [← Nat.pow_add]
  congr 1
  omega

/-- Moving the first bit of the upper half of a divisor to the left end loses no bit. -/
theorem moved_lt {d s : ℕ} (hs : s ≤ 31) (hsmall : d / 2 ^ 32 * 2 ^ s < 2 ^ 32) :
    d * 2 ^ s < 2 ^ 64 := by
  have hpow := pow_split hs
  have hhigh : d / 2 ^ 32 < 2 ^ (32 - s) := by
    conv_rhs at hsmall => rw [hpow]
    exact Nat.lt_of_mul_lt_mul_right hsmall
  have hdivisor : d < 2 ^ 32 * 2 ^ (32 - s) := by
    calc d < 2 ^ 32 * (d / 2 ^ 32 + 1) := Nat.lt_mul_div_succ d (Nat.two_pow_pos 32)
      _ ≤ 2 ^ 32 * 2 ^ (32 - s) := Nat.mul_le_mul_left _ hhigh
  calc d * 2 ^ s < 2 ^ 32 * 2 ^ (32 - s) * 2 ^ s :=
        Nat.mul_lt_mul_of_pos_right hdivisor (Nat.two_pow_pos s)
    _ = 2 ^ 64 := by rw [Nat.mul_assoc, ← hpow, ← Nat.pow_add]

/-- The estimate by the upper half of the normalised divisor is too large by one at most. -/
theorem estimate_bounds {n d s : ℕ} (hn : n < 2 ^ 64) (hs : s ≤ 31) (hlarge : 2 ^ 63 ≤ d * 2 ^ s) :
    n / d ≤ n / 2 / (d * 2 ^ s / 2 ^ 32) / 2 ^ (31 - s) ∧
      n / 2 / (d * 2 ^ s / 2 ^ 32) / 2 ^ (31 - s) ≤ n / d + 1 := by
  have hpow := pow_split hs
  have hpos : 0 < d := by
    rcases Nat.eq_zero_or_pos d with rfl | hpos
    · omega
    · exact hpos
  have hhalf : 2 ^ 31 ≤ d * 2 ^ s / 2 ^ 32 := by
    rw [Nat.le_div_iff_mul_le (Nat.two_pow_pos 32)]
    exact hlarge
  -- the divisor with its lowest bits cleared
  have hdivide : n / 2 / (d * 2 ^ s / 2 ^ 32) / 2 ^ (31 - s) =
      n / (d * 2 ^ s / 2 ^ 32 * 2 ^ (32 - s)) := by
    have htwo : 2 ^ (32 - s) = 2 * 2 ^ (31 - s) := by
      rw [← Nat.pow_succ']
      congr 1
      omega
    rw [Nat.div_div_eq_div_mul, Nat.div_div_eq_div_mul, htwo]
    congr 1
    ring
  have hcleared : d * 2 ^ s / 2 ^ 32 = d / 2 ^ (32 - s) := by
    rw [hpow, Nat.mul_div_mul_right _ _ (Nat.two_pow_pos s)]
  rw [hdivide, hcleared]
  rw [hcleared] at hhalf
  have hmod := Nat.mod_lt d (Nat.two_pow_pos (32 - s))
  have hsplit := Nat.div_add_mod' d (2 ^ (32 - s))
  have hroom : 0 < 2 ^ (32 - s) := Nat.two_pow_pos _
  have hestimate : 0 < d / 2 ^ (32 - s) * 2 ^ (32 - s) :=
    Nat.mul_pos (by omega) hroom
  refine ⟨div_le_estimate hestimate (by omega),
    estimate_le hestimate hpos (r := 2 ^ (32 - s) - 1) (by omega) ?_⟩
  have hquotient : n / d < 2 * 2 ^ s := by
    rw [Nat.div_lt_iff_lt_mul hpos]
    calc n < 2 ^ 64 := hn
      _ = 2 * 2 ^ 63 := by decide
      _ ≤ 2 * (d * 2 ^ s) := Nat.mul_le_mul_left 2 hlarge
      _ = 2 * 2 ^ s * d := by ring
  calc (n / d + 1) * (2 ^ (32 - s) - 1) ≤ 2 * 2 ^ s * (2 ^ (32 - s) - 1) :=
        Nat.mul_le_mul_right _ hquotient
    _ = 2 ^ 33 - 2 * 2 ^ s := by
        rw [Nat.mul_sub, Nat.mul_one, Nat.mul_assoc, Nat.mul_comm (2 ^ s), ← hpow,
          ← Nat.pow_succ']
    _ ≤ 2 ^ 31 * 2 ^ (32 - s) := by
        rcases Nat.lt_or_eq_of_le hs with hlt | rfl
        · have hfour : 2 ^ 2 ≤ 2 ^ (32 - s) := Nat.pow_le_pow_right (by omega) (by omega)
          omega
        · decide
    _ ≤ d / 2 ^ (32 - s) * 2 ^ (32 - s) := Nat.mul_le_mul_right _ hhalf

/-- The correction of an estimate that is too large by one at most. -/
theorem correct {n d q : BitVec 64} (hle : d.toNat ≤ n.toNat) (hpos : 0 < d.toNat)
    (hq : n.toNat / d.toNat ≤ q.toNat) (hq' : q.toNat ≤ n.toNat / d.toNat + 1) :
    (if n - (q - 1) * d < d then q - 1 else q) = n / d := by
  have hone : 1 ≤ n.toNat / d.toNat := (Nat.one_le_div_iff hpos).mpr hle
  have hpred : (q - 1).toNat = q.toNat - 1 := by
    have hlt := q.isLt
    rw [BitVec.toNat_sub]
    have hbit : (1 : BitVec 64).toNat = 1 := rfl
    rw [hbit]
    omega
  have hless : (q.toNat - 1) * d.toNat ≤ n.toNat :=
    (Nat.mul_le_mul_right _ (by omega)).trans (Nat.div_mul_le_self n.toNat d.toNat)
  have hrest : (n - (q - 1) * d).toNat = n.toNat - (q.toNat - 1) * d.toNat := by
    have hlt := n.isLt
    rw [BitVec.toNat_sub, BitVec.toNat_mul, hpred]
    generalize (q.toNat - 1) * d.toNat = product at *
    omega
  have hsplit := Nat.div_add_mod' n.toNat d.toNat
  have hmod := Nat.mod_lt n.toNat hpos
  apply BitVec.eq_of_toNat_eq
  rw [BitVec.toNat_udiv]
  rcases Nat.lt_or_eq_of_le hq' with hlt | heq
  · have hexact : q.toNat = n.toNat / d.toNat := by omega
    have hbound : d.toNat ≤ n.toNat - (q.toNat - 1) * d.toNat := by
      rw [hexact, Nat.sub_mul, Nat.one_mul]
      omega
    rw [if_neg fun hcond ↦ absurd (BitVec.lt_def.mp hcond) (by omega), hexact]
  · have hbound : n.toNat - (q.toNat - 1) * d.toNat < d.toNat := by
      rw [heq, Nat.add_sub_cancel]
      omega
    rw [if_pos (BitVec.lt_def.mpr (hrest ▸ hbound)), hpred, heq, Nat.add_sub_cancel]

/-- `udiv64` divides by a divisor from `2 ^ 32` on. -/
theorem udiv64_large {n d : BitVec 64} (hd : 2 ^ 32 ≤ d.toNat) : udiv64 n d = some (n / d) := by
  have hcond : ¬d >>> 32 = 0 := fun heq ↦ absurd ((high_eq_zero_iff d).mp heq) (by omega)
  unfold udiv64
  rw [if_neg hcond]
  by_cases hless : n < d
  · rw [if_pos hless]
    refine congrArg some (BitVec.eq_of_toNat_eq ?_)
    rw [BitVec.toNat_udiv, Nat.div_eq_of_lt (BitVec.lt_def.mp hless)]
    rfl
  · have hle : d.toNat ≤ n.toNat := Nat.le_of_not_lt (mt BitVec.lt_def.mpr hless)
    have hn := n.isLt
    have hhigh := toNat_high d
    have hpos : 0 < ((d >>> 32).setWidth 32 : BitVec 32).toNat := by omega
    obtain ⟨hs, hlarge, hsmall⟩ := nlz_spec hpos
    rw [if_neg hless]
    dsimp only [Bind.bind]
    generalize nlz ((d >>> 32).setWidth 32) = s at *
    rw [hhigh] at hlarge hsmall
    have hmoved := moved_lt hs hsmall
    have hnormal : 2 ^ 63 ≤ d.toNat * 2 ^ s := by
      calc 2 ^ 63 = 2 ^ 31 * 2 ^ 32 := by decide
        _ ≤ d.toNat / 2 ^ 32 * 2 ^ s * 2 ^ 32 := Nat.mul_le_mul_right _ hlarge
        _ = d.toNat / 2 ^ 32 * 2 ^ 32 * 2 ^ s := by ring
        _ ≤ d.toNat * 2 ^ s := Nat.mul_le_mul_right _ (Nat.div_mul_le_self _ _)
    have hdivisor : (((d <<< s) >>> 32).setWidth 32 : BitVec 32).toNat =
        d.toNat * 2 ^ s / 2 ^ 32 := by
      rw [toNat_high, BitVec.toNat_shiftLeft, Nat.shiftLeft_eq, Nat.mod_eq_of_lt hmoved]
    have hhalf : 2 ^ 31 ≤ d.toNat * 2 ^ s / 2 ^ 32 := by omega
    have hdividend : (n >>> 1).toNat = n.toNat / 2 := by
      rw [BitVec.toNat_ushiftRight, Nat.shiftRight_eq_div_pow]
    have hfits : n.toNat / 2 / (d.toNat * 2 ^ s / 2 ^ 32) < 2 ^ 32 := by
      rw [Nat.div_lt_iff_lt_mul (by omega)]
      omega
    have hdivl : divl (n >>> 1) (((d <<< s) >>> 32).setWidth 32) =
        some (BitVec.ofNat 32 (n.toNat / 2 / (d.toNat * 2 ^ s / 2 ^ 32))) := by
      rw [divl_eq (by omega) (by rwa [hdivisor, hdividend]), hdivisor, hdividend]
    obtain ⟨hlower, hupper⟩ := estimate_bounds hn hs hnormal
    have hq : ((BitVec.ofNat 32 (n.toNat / 2 / (d.toNat * 2 ^ s / 2 ^ 32)) >>> (31 - s)).setWidth
        64 : BitVec 64).toNat = n.toNat / 2 / (d.toNat * 2 ^ s / 2 ^ 32) / 2 ^ (31 - s) := by
      have hle' := Nat.div_le_self (n.toNat / 2 / (d.toNat * 2 ^ s / 2 ^ 32)) (2 ^ (31 - s))
      rw [BitVec.toNat_setWidth, BitVec.toNat_ushiftRight, BitVec.toNat_ofNat,
        Nat.mod_eq_of_lt hfits, Nat.shiftRight_eq_div_pow]
      exact Nat.mod_eq_of_lt (Nat.lt_of_le_of_lt hle' (Nat.lt_trans hfits (by decide)))
    rw [hdivl, Option.bind_some]
    exact congrArg some (correct hle (by omega) (hq ▸ hlower) (hq ▸ hupper))

/-- `udiv64` divides, and no `divl` traps. -/
theorem udiv64_eq (n : BitVec 64) {d : BitVec 64} (hd : d ≠ 0) : udiv64 n d = some (n / d) := by
  rcases Nat.lt_or_ge d.toNat (2 ^ 32) with hsmall | hlarge
  · refine udiv64_small (Nat.pos_of_ne_zero fun hzero ↦ hd ?_) hsmall
    exact BitVec.eq_of_toNat_eq hzero
  · exact udiv64_large hlarge

/-! ### Signed division -/

/-- `sdiv64` is the signed division of bit vectors. -/
theorem sdiv64_eq (n : BitVec 64) {d : BitVec 64} (hd : d ≠ 0) :
    sdiv64 n d = some (n.sdiv d) := by
  have hneg : -d ≠ 0 := fun heq ↦ hd (BitVec.neg_eq_zero_iff.mp heq)
  have hsign : ∀ x : BitVec 64, 0 ≤ x.toInt ↔ x.msb = false := fun x ↦ by
    rw [BitVec.msb_eq_toInt, decide_eq_false_iff_not, Int.not_lt]
  unfold sdiv64 BitVec.sdiv
  dsimp only [Bind.bind]
  simp only [hsign, ← BitVec.msb_eq_toInt]
  cases n.msb <;> cases d.msb
  · simp [udiv64_eq n hd]
  · simp [udiv64_eq n hneg]
  · simp [udiv64_eq (-n) hd]
  · simp [udiv64_eq (-n) hneg]

/-- Both divisions are exact, and no `divl` traps. -/
theorem division_exact (n d : BitVec 64) (hd : d ≠ 0) :
    (udivdi3 n d).map BitVec.toNat = some (n.toNat / d.toNat) ∧
      (¬(n = BitVec.intMin 64 ∧ d = -1) →
        (divdi3 n d).map BitVec.toInt = some (n.toInt.tdiv d.toInt)) := by
  refine ⟨?_, fun hproper ↦ ?_⟩
  · rw [udivdi3, udiv64_eq n hd, Option.map_some, BitVec.toNat_udiv]
  · rw [divdi3, sdiv64_eq n hd, Option.map_some,
      BitVec.toInt_sdiv_of_ne_or_ne n d (not_and_or.mp hproper)]

/-- Division of the least dividend by a divisor from `2 ^ 32` on. -/
theorem division_exact_intMin :
    (udivdi3 (BitVec.intMin 64) 0x123456789).map BitVec.toNat =
        some ((BitVec.intMin 64).toNat / (0x123456789 : BitVec 64).toNat) ∧
      (¬(BitVec.intMin 64 = BitVec.intMin 64 ∧ (0x123456789 : BitVec 64) = -1) →
        (divdi3 (BitVec.intMin 64) 0x123456789).map BitVec.toInt =
          some ((BitVec.intMin 64).toInt.tdiv (0x123456789 : BitVec 64).toInt)) :=
  division_exact (BitVec.intMin 64) 0x123456789 (by decide)

end Jungle.Arithmetic
