import Mathlib.Data.Nat.Digits.Lemmas
import Mathlib.Algebra.Order.Group.Nat

/-!
# Digits in groups

`grouped sep period cnt digits` writes digits from the lowest one on, `cnt` of them being written
already, with a separator after every `period` of them; a period of `0` means no separators. Without
the separators the digits are the given ones, and `(n - 1) / period` of `n` digits have one in front.
-/

set_option autoImplicit false
set_option relaxedAutoImplicit false

namespace Jungle.Lib

variable {α : Type*}

/-- Digits with a separator in front of every one whose place is a positive multiple of the period. -/
def grouped (sep : α) (period : ℕ) : ℕ → List α → List α
  | _, [] => []
  | cnt, d :: digits =>
    if 0 < cnt ∧ cnt % period = 0 then sep :: d :: grouped sep period (cnt + 1) digits
    else d :: grouped sep period (cnt + 1) digits

variable {sep : α} {period cnt : ℕ} {digits : List α}

theorem filter_grouped [DecidableEq α] (cnt : ℕ) (hsep : sep ∉ digits) :
    (grouped sep period cnt digits).filter (fun d ↦ d ≠ sep) = digits := by
  induction digits generalizing cnt with
  | nil => rfl
  | cons d digits ih =>
    obtain ⟨hne, hsep⟩ := List.ne_and_not_mem_of_not_mem_cons hsep
    have hrest := ih (cnt + 1) hsep
    unfold grouped
    split_ifs
    · rw [List.filter_cons_of_neg (by simp), List.filter_cons_of_pos (by simpa using hne.symm), hrest]
    · rw [List.filter_cons_of_pos (by simpa using hne.symm), hrest]

theorem mem_grouped {ch : α} (h : ch ∈ grouped sep period cnt digits) : ch = sep ∨ ch ∈ digits := by
  induction digits generalizing cnt with
  | nil => contradiction
  | cons d digits ih =>
    unfold grouped at h
    split_ifs at h
    · obtain rfl | h := List.mem_cons.mp h
      · exact Or.inl rfl
      · obtain rfl | h := List.mem_cons.mp h
        · exact Or.inr List.mem_cons_self
        · exact (ih h).imp_right (List.mem_cons_of_mem d)
    · obtain rfl | h := List.mem_cons.mp h
      · exact Or.inr List.mem_cons_self
      · exact (ih h).imp_right (List.mem_cons_of_mem d)

/-- One more place up to `cnt` has a separator exactly when `cnt` is a positive multiple of the period. -/
theorem div_period (cnt period : ℕ) :
    cnt / period = (cnt - 1) / period + if 0 < cnt ∧ cnt % period = 0 then 1 else 0 := by
  obtain _ | k := cnt
  · simp
  · rw [Nat.succ_div, Nat.add_sub_cancel]
    simp only [Nat.succ_pos, true_and, Nat.dvd_iff_mod_eq_zero]

theorem length_grouped (sep : α) (period cnt : ℕ) (digits : List α) :
    (grouped sep period cnt digits).length + (cnt - 1) / period =
      digits.length + (cnt + digits.length - 1) / period := by
  induction digits generalizing cnt with
  | nil => simp [grouped]
  | cons d digits ih =>
    have hrest := ih (cnt + 1)
    have hplaces := div_period cnt period
    have hend : cnt + (digits.length + 1) - 1 = cnt + 1 + digits.length - 1 := by omega
    rw [Nat.add_sub_cancel] at hrest
    rw [List.length_cons, hend]
    unfold grouped
    split_ifs at hplaces ⊢ with hsep
    · simp only [List.length_cons]
      omega
    · simp only [List.length_cons]
      omega

/-- The number of separators. -/
theorem length_grouped_zero (sep : α) (period : ℕ) (digits : List α) :
    (grouped sep period 0 digits).length = digits.length + (digits.length - 1) / period := by
  have hlength := length_grouped sep period 0 digits
  simpa using hlength

/-- The last character written is the highest digit. -/
theorem getLast?_grouped (sep : α) (period cnt : ℕ) (digits : List α) :
    (grouped sep period cnt digits).getLast? = digits.getLast? := by
  induction digits generalizing cnt with
  | nil => rfl
  | cons d digits ih =>
    have hrest := ih (cnt + 1)
    unfold grouped
    split_ifs <;> simp only [List.getLast?_cons, hrest, Option.getD_some]

/-- The highest digit of a number is not `0`. -/
theorem getLast?_digits_ne_zero (base n : ℕ) : (base.digits n).getLast? ≠ some 0 := by
  intro hlast
  obtain rfl | hn := Nat.eq_zero_or_pos n
  · simp at hlast
  · have hne := Nat.digits_ne_nil_iff_ne_zero (b := base).mpr hn.ne'
    rw [List.getLast?_eq_some_getLast hne] at hlast
    exact Nat.getLast_digit_ne_zero base hn.ne' (Option.some.inj hlast)

/-- Zeros above the highest digit do not change a number. -/
theorem ofDigits_digits_append_zeros {base : ℕ} (n k : ℕ) :
    Nat.ofDigits base (base.digits n ++ List.replicate k 0) = n := by
  rw [Nat.ofDigits_append_replicate_zero, Nat.ofDigits_digits]

end Jungle.Lib
