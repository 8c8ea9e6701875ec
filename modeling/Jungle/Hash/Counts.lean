import Jungle.Hash.Basic
import Mathlib.Data.Nat.Log

/-!
# Numbers of buckets

The number of buckets that `rehash` wants is a power of two and at least four. For such a number the
mask of `find_bucket` is a remainder.
-/

set_option autoImplicit false
set_option relaxedAutoImplicit false

namespace Jungle.Hash

open Jungle.Lib

/-- A power of two that is at least four. -/
def Valid (n : ℕ) : Prop := 4 ≤ n ∧ ∃ k, n = 2 ^ k

variable {n k : ℕ}

/-- Two numbers with the same highest bit keep it in their conjunction. -/
theorem two_pow_le_and {x y : ℕ} (hx : 2 ^ k ≤ x) (hx' : x < 2 ^ (k + 1)) (hy : 2 ^ k ≤ y)
    (hy' : y < 2 ^ (k + 1)) : 2 ^ k ≤ x &&& y := by
  refine Nat.ge_two_pow_of_testBit ?_
  rw [Nat.testBit_and, Nat.testBit_of_two_pow_le_and_two_pow_add_one_gt hx hx',
    Nat.testBit_of_two_pow_le_and_two_pow_add_one_gt hy hy', Bool.and_self]

/-- A number between two powers of two keeps its highest bit. -/
theorem two_pow_le_turnOff (hn : 2 ^ k < n) (hn' : n < 2 ^ (k + 1)) :
    2 ^ k ≤ turnOffLeast1bit n :=
  two_pow_le_and hn.le hn' (Nat.le_sub_one_of_lt hn) (Nat.lt_of_le_of_lt (Nat.sub_le n 1) hn')

theorem turnOff_lt (hn : 0 < n) : turnOffLeast1bit n < n :=
  Nat.lt_of_le_of_lt Nat.and_le_right (Nat.sub_lt hn Nat.zero_lt_one)

/-- A number that `is_power_of_2` accepts is one. -/
theorem exists_two_pow (h : isPowerOf2 n = true) : ∃ k, n = 2 ^ k := by
  obtain ⟨hne, hoff⟩ := of_decide_eq_true h
  have hle := Nat.pow_log_le_self 2 hne
  have hlt := Nat.lt_pow_succ_log_self Nat.one_lt_two n
  refine ⟨Nat.log 2 n, hle.eq_or_lt.elim Eq.symm fun hless ↦ ?_⟩
  have hhigh := two_pow_le_turnOff hless hlt
  rw [hoff] at hhigh
  exact absurd hhigh (Nat.not_le_of_lt (Nat.two_pow_pos _))

theorem isPowerOf2_two_pow (k : ℕ) : isPowerOf2 (2 ^ k) = true := by
  refine decide_eq_true ⟨(Nat.two_pow_pos k).ne', ?_⟩
  rw [turnOffLeast1bit, Nat.and_two_pow_sub_one_eq_mod, Nat.mod_self]

/-- Turning a bit off in a number that is no power of two leaves at least four. -/
theorem four_le_turnOff (hn : 4 ≤ n) (h : isPowerOf2 n = false) : 4 ≤ turnOffLeast1bit n := by
  have hpos : n ≠ 0 := by omega
  have hle := Nat.pow_log_le_self 2 hpos
  have hlt := Nat.lt_pow_succ_log_self Nat.one_lt_two n
  have hlog : 2 ≤ Nat.log 2 n := Nat.le_log_of_pow_le Nat.one_lt_two hn
  rcases hle.eq_or_lt with heq | hless
  · rw [← heq, isPowerOf2_two_pow] at h
    exact absurd h Bool.true_eq_false.mp
  · have hfour : 2 ^ 2 ≤ 2 ^ Nat.log 2 n := Nat.pow_le_pow_right Nat.zero_lt_two hlog
    exact hfour.trans (two_pow_le_turnOff hless hlt)

/-- The first loop of `rehash` finds a valid number. -/
theorem returns_round (hn : 4 ≤ n) :
    ∃ n', Returns (fun fuel ↦ whileLoop roundBody fuel n) n' ∧ Valid n' := by
  induction n using Nat.strongRecOn with
  | ind n ih =>
    cases h : isPowerOf2 n with
    | true =>
      have hbody : roundBody n = some (.inr n) := by rw [roundBody, h, if_pos rfl]
      exact ⟨n, returns_leave hbody, hn, exists_two_pow h⟩
    | false =>
      have hbody : roundBody n = some (.inl (turnOffLeast1bit n)) := by
        rw [roundBody, h, if_neg Bool.false_ne_true]
      obtain ⟨n', hreturns, hvalid⟩ := ih _ (turnOff_lt (by omega)) (four_le_turnOff hn h)
      exact ⟨n', returns_continue hbody hreturns, hvalid⟩

theorem returns_newBucketCnt (elemCnt : ℕ) :
    ∃ n, Returns (fun fuel ↦ newBucketCnt fuel elemCnt) n ∧ Valid n := by
  have hfour : 4 ≤ if elemCnt / bestElemsPerBucket < 4 then 4 else elemCnt / bestElemsPerBucket := by
    split_ifs <;> omega
  exact returns_round hfour

/-- The mask of `find_bucket` selects a bucket. -/
theorem and_pred_lt (hn : Valid n) (x : ℕ) : x &&& (n - 1) < n := by
  obtain ⟨hfour, k, rfl⟩ := hn
  rw [Nat.and_two_pow_sub_one_eq_mod]
  exact Nat.mod_lt _ (Nat.two_pow_pos k)

end Jungle.Hash
