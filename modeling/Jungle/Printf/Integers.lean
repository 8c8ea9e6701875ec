import Jungle.Lib.DigitGroups
import Jungle.Printf.Basic

/-!
# The buffer of `format_integer`

`accumulate_eq` gives the characters that `format_integer` leaves in its buffer: the digits of the value
from the lowest one on, in groups, and zeros behind them. They always fit.
-/

set_option autoImplicit false
set_option relaxedAutoImplicit false

namespace Jungle.Printf

open Jungle.Lib

/-- What the numerals of a base are read back by. -/
structure IntegerBase.Legible (b : IntegerBase) : Prop where
  nodup : b.digits.Nodup
  zero : b.digit 0 = '0'
  plain : ∀ ch ∈ b.digits, ch ∉ [',', ' ', '+', '-']
  x : ∀ x ∈ b.x, x ∉ [',', ' '] ∧ x ∉ b.digits
  word_le : 2 ^ 64 ≤ b.base ^ 22
  group : 3 ≤ b.group

/-- A base is checked by going through its digits. -/
theorem legible_of_all {b : IntegerBase} (hnodup : b.digits.Nodup) (hzero : b.digit 0 = '0')
    (hplain : b.digits.all (fun ch ↦ ch ∉ [',', ' ', '+', '-']) = true)
    (hx : b.x.all (fun x ↦ x ∉ [',', ' '] ∧ x ∉ b.digits) = true) (hword : 2 ^ 64 ≤ b.base ^ 22)
    (hgroup : 3 ≤ b.group) : b.Legible where
  nodup := hnodup
  zero := hzero
  plain ch hch := of_decide_eq_true (List.all_eq_true.mp hplain ch hch)
  x x hmem := by
    rw [Option.mem_def.mp hmem] at hx
    exact of_decide_eq_true hx
  word_le := hword
  group := hgroup

theorem legible_baseD : baseD.Legible :=
  legible_of_all (by decide) (by decide) (by decide) (by decide) (by decide) (by decide)

theorem legible_baseO : baseO.Legible :=
  legible_of_all (by decide) (by decide) (by decide) (by decide) (by decide) (by decide)

theorem legible_baseX : baseX.Legible :=
  legible_of_all (by decide) (by decide) (by decide) (by decide) (by decide) (by decide)

theorem legible_baseUpperX : baseUpperX.Legible :=
  legible_of_all (by decide) (by decide) (by decide) (by decide) (by decide) (by decide)

variable {b : IntegerBase} {c : PrintfConversion} {buf : Buffer} {value cnt : ℕ} {group : Bool}

theorem IntegerBase.digit_mem (b : IntegerBase) (value : ℕ) : b.digit value ∈ b.digits :=
  List.get_mem _ _

/-! ### The loops -/

theorem Buffer.push_eq (ch : Char) (h : buf.chars.length < 64) :
    ∃ buf', buf.push ch = some buf' ∧ buf'.chars = buf.chars ++ [ch] := by
  unfold push
  rw [dif_pos h]
  exact ⟨_, rfl, rfl⟩

/-- The number of places of a group, `0` without the flag. -/
def period (b : IntegerBase) (group : Bool) : ℕ := if group then b.group else 0

/-- The digits of a value as they are accumulated. -/
def digitChars (b : IntegerBase) (value : ℕ) : List Char := (b.base.digits value).map b.digit

theorem digitChars_pos (hvalue : 0 < value) :
    digitChars b value = b.digit value :: digitChars b (value / b.base) := by
  have hmod : b.digit (value % b.base) = b.digit value := by
    unfold IntegerBase.digit
    simp only [Nat.mod_mod]
  rw [digitChars, Nat.digits_def' b.one_lt_base hvalue, List.map_cons, hmod, digitChars]

/-- The loop leaves the digits in groups. -/
theorem pushDigits_eq (b : IntegerBase) (group : Bool) (value cnt : ℕ) (buf : Buffer)
    (hroom : buf.chars.length + (grouped ',' (period b group) cnt (digitChars b value)).length ≤ 64) :
    ∃ buf', pushDigits b group value cnt buf = some buf' ∧
      buf'.chars = buf.chars ++ grouped ',' (period b group) cnt (digitChars b value) := by
  induction value using Nat.strong_induction_on generalizing cnt buf with
  | _ value ih =>
    unfold pushDigits
    obtain rfl | hvalue := Nat.eq_zero_or_pos value
    · exact ⟨buf, rfl, by simp [digitChars, grouped]⟩
    · have hsep : (0 < cnt ∧ cnt % period b group = 0) ↔ (group = true ∧ 0 < cnt ∧ cnt % b.group = 0) := by
        unfold period
        cases group with
        | false =>
          simp only [Bool.false_eq_true, if_false, Nat.mod_zero, false_and, iff_false]
          omega
        | true => simp
      rw [dif_pos hvalue]
      rw [digitChars_pos hvalue] at hroom ⊢
      unfold grouped at hroom ⊢
      simp only [hsep] at hroom ⊢
      dsimp only [Bind.bind]
      by_cases hgroup : group = true ∧ 0 < cnt ∧ cnt % b.group = 0
      · simp only [if_pos hgroup, List.length_cons] at hroom ⊢
        obtain ⟨buf₁, hpush₁, hchars₁⟩ := buf.push_eq ',' (by omega)
        have hlength₁ : buf₁.chars.length = buf.chars.length + 1 := by
          rw [hchars₁, List.length_append, List.length_singleton]
        obtain ⟨buf₂, hpush₂, hchars₂⟩ := buf₁.push_eq (b.digit value) (by omega)
        have hlength₂ : buf₂.chars.length = buf.chars.length + 2 := by
          rw [hchars₂, List.length_append, List.length_singleton, hlength₁]
        obtain ⟨buf', hrest, hchars⟩ := ih (value / b.base) (Nat.div_lt_self hvalue b.one_lt_base)
          (cnt + 1) buf₂ (by omega)
        rw [hpush₁, Option.bind_some, hpush₂, Option.bind_some]
        exact ⟨buf', hrest, by rw [hchars, hchars₂, hchars₁]; simp⟩
      · simp only [if_neg hgroup, List.length_cons] at hroom ⊢
        obtain ⟨buf₂, hpush₂, hchars₂⟩ := buf.push_eq (b.digit value) (by omega)
        have hlength₂ : buf₂.chars.length = buf.chars.length + 1 := by
          rw [hchars₂, List.length_append, List.length_singleton]
        obtain ⟨buf', hrest, hchars⟩ := ih (value / b.base) (Nat.div_lt_self hvalue b.one_lt_base)
          (cnt + 1) buf₂ (by omega)
        rw [Option.bind_some, hpush₂, Option.bind_some]
        exact ⟨buf', hrest, by rw [hchars, hchars₂]; simp⟩

/-- The loop leaves zeros up to the precision, as far as `63` characters go. -/
theorem pushZeros_eq (precision : ℕ) (buf : Buffer) : ∃ buf', pushZeros precision buf = some buf' ∧
    buf'.chars = buf.chars ++ List.replicate (min precision 63 - buf.chars.length) '0' := by
  induction hroom : min precision 63 - buf.chars.length generalizing buf with
  | zero =>
    unfold pushZeros
    rw [if_neg (by omega)]
    exact ⟨buf, rfl, by simp⟩
  | succ k ih =>
    obtain ⟨buf₁, hpush, hchars₁⟩ := buf.push_eq '0' (by omega)
    obtain ⟨buf', hrest, hchars⟩ := ih buf₁ (by
      rw [hchars₁, List.length_append, List.length_singleton]
      omega)
    unfold pushZeros
    rw [if_pos (by omega)]
    split
    · next hnone => exact absurd (hpush.symm.trans hnone) (Option.some_ne_none _)
    · next buf₂ hsome =>
      rw [hpush] at hsome
      obtain rfl := Option.some.inj hsome
      exact ⟨buf', hrest, by rw [hchars, hchars₁, List.append_assoc]; rfl⟩

/-! ### The buffer -/

theorem IntegerBase.digit_inj (hb : b.Legible) {i j : ℕ} (hi : i < b.base) (hj : j < b.base)
    (heq : b.digit i = b.digit j) : i = j := by
  have hplace := Fin.val_eq_of_eq (List.nodup_iff_injective_get.mp hb.nodup heq)
  simp only [Nat.mod_eq_of_lt hi, Nat.mod_eq_of_lt hj] at hplace
  exact hplace

/-- The highest digit of a value is not rendered as `0`. -/
theorem getLast?_digitChars_ne_zero (hb : b.Legible) (value : ℕ) :
    (digitChars b value).getLast? ≠ some '0' := by
  intro hlast
  rw [digitChars, List.getLast?_map, Option.map_eq_some_iff] at hlast
  obtain ⟨d, hd, heq⟩ := hlast
  have hlt : d < b.base := Nat.digits_lt_base b.one_lt_base (List.mem_of_getLast? hd)
  rw [← hb.zero] at heq
  have hzero := IntegerBase.digit_inj hb hlt (Nat.zero_lt_of_lt hlt) heq
  exact getLast?_digits_ne_zero b.base value (hzero ▸ hd)

/-- The digits of a value with group commas. -/
def shownDigits (b : IntegerBase) (flags : Finset Flag) (value : ℕ) : List Char :=
  grouped ',' (period b (.group ∈ flags)) 0 (digitChars b value)

/-- The digits of a 64-bit value and their commas take less than half of the buffer. -/
theorem length_shownDigits_le (hb : b.Legible) (flags : Finset Flag) (hvalue : value < 2 ^ 64) :
    (shownDigits b flags value).length ≤ 29 := by
  have hdigits : (digitChars b value).length ≤ 22 := by
    rw [digitChars, List.length_map, Nat.digits_length_le_iff b.one_lt_base]
    exact Nat.lt_of_lt_of_le hvalue hb.word_le
  have hcommas : ((digitChars b value).length - 1) / period b (.group ∈ flags) ≤ 7 := by
    unfold period
    split
    · exact Nat.div_le_of_le_mul (by have := hb.group; omega)
    · rw [Nat.div_zero]
      exact Nat.zero_le 7
  rw [shownDigits, length_grouped_zero]
  omega

/-- The precision that digits are rendered with. -/
def renderedPrecision (c : PrintfConversion) : ℕ := if c.precision < 0 then 1 else c.precision.toNat

/-- The number of zeros in front of the digits. -/
def leadingZeros (b : IntegerBase) (c : PrintfConversion) (value : ℕ) : ℕ :=
  let shown := (shownDigits b c.flags value).length
  (min (renderedPrecision c) 63 - shown) +
    if .pound ∈ c.flags ∧ b.base = 8 ∧ min (renderedPrecision c) 63 ≤ shown then 1 else 0

/-- The buffer never overflows, and what it holds. -/
theorem accumulate_eq (hb : b.Legible) (c : PrintfConversion) (hvalue : value < 2 ^ 64) :
    ∃ buf, accumulate value b c = some buf ∧
      buf.chars = shownDigits b c.flags value ++ List.replicate (leadingZeros b c value) '0' := by
  have hshown := length_shownDigits_le hb c.flags hvalue
  have hprecision : (if c.precision < 0 then 1 else c.precision) = (renderedPrecision c : ℤ) := by
    unfold renderedPrecision
    split <;> omega
  obtain ⟨buf₁, hdigits, hchars₁⟩ := pushDigits_eq b (.group ∈ c.flags) value 0
    ⟨[], Nat.zero_le _⟩ (by
      change 0 + (shownDigits b c.flags value).length ≤ 64
      omega)
  have hchars₁ : buf₁.chars = shownDigits b c.flags value := hchars₁
  obtain ⟨buf₂, hzeros, hchars₂⟩ := pushZeros_eq (renderedPrecision c) buf₁
  rw [hchars₁] at hchars₂
  have hlast : buf₂.chars.getLast? ≠ some '0' ↔
      min (renderedPrecision c) 63 ≤ (shownDigits b c.flags value).length := by
    rw [hchars₂]
    cases hcount : min (renderedPrecision c) 63 - (shownDigits b c.flags value).length with
    | zero =>
      have hle : min (renderedPrecision c) 63 ≤ (shownDigits b c.flags value).length := by omega
      rw [List.replicate_zero, List.append_nil, shownDigits, getLast?_grouped]
      exact iff_of_true (getLast?_digitChars_ne_zero hb value) hle
    | succ k =>
      rw [List.replicate_succ', ← List.append_assoc, List.getLast?_append_of_ne_nil _ (by simp)]
      simp
      omega
  unfold accumulate
  dsimp only [Bind.bind]
  rw [hdigits, Option.bind_some, hprecision, hzeros, Option.bind_some]
  unfold leadingZeros
  simp only [hlast]
  split_ifs with hoctal
  · have hlength : buf₂.chars.length < 64 := by
      rw [hchars₂, List.length_append, List.length_replicate]
      omega
    obtain ⟨buf, hpush, hchars⟩ := buf₂.push_eq '0' hlength
    refine ⟨buf, hpush, ?_⟩
    rw [hchars, hchars₂, List.append_assoc, List.replicate_succ']
  · exact ⟨buf₂, rfl, hchars₂⟩

end Jungle.Printf
