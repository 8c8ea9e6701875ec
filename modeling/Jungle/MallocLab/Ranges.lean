import Mathlib.Algebra.Group.Nat.Defs
import Mathlib.Data.Nat.Notation
import Mathlib.Logic.Basic
import Mathlib.Tactic.SplitIfs

/-!
# The range list of the malloc driver

`add_range` of `malloc-lab/mdriver.c`. The list holds the payloads of the live blocks. A call ends the
driver, with `none`, where an `assert` fails or `malloc` returns `NULL`. The messages are left out. A new
range is compared by its two ends only, so a recorded range within it is overlooked.
-/

set_option autoImplicit false
set_option relaxedAutoImplicit false

namespace Jungle.MallocLab

/-- `range_t`: the first and the last byte of a payload. -/
structure Range where
  lo : ℕ
  hi : ℕ
  le : lo ≤ hi

/-- The payload of `size` bytes at `lo`. -/
def payload (lo size : ℕ) (h : 0 < size) : Range :=
  ⟨lo, lo + size - 1, Nat.le_sub_one_of_lt (Nat.lt_add_of_pos_right h)⟩

/-- `ALIGNMENT` -/
def ALIGNMENT : ℕ := 8

/-- `IS_ALIGNED (p)`, which casts the pointer to an `unsigned int`. -/
def isAligned (p : ℕ) : Bool := p % 2 ^ 32 % ALIGNMENT == 0

/-- The loop of `add_range` finds a payload in which one of the ends lies. -/
def overlaps (lo hi : ℕ) : List Range → Bool
  | [] => false
  | p :: ranges =>
    if (p.lo ≤ lo ∧ lo ≤ p.hi) ∨ (p.lo ≤ hi ∧ hi ≤ p.hi) then true else overlaps lo hi ranges

/-- `add_range (ranges, lo, size)`, with the bounds of the heap and whether `malloc` returns a node. -/
def addRange (heapLo heapHi : ℕ) (malloc : Bool) (ranges : List Range) (lo size : ℕ) :
    Option (ℕ × List Range) :=
  if hsize : 0 < size then
    let hi := lo + size - 1
    if !isAligned lo then some (0, ranges)
    else if lo < heapLo ∨ heapHi < lo ∨ hi < heapLo ∨ heapHi < hi then some (0, ranges)
    else if overlaps lo hi ranges then some (0, ranges)
    else if malloc then some (1, payload lo size hsize :: ranges)
    else none
  else none

/-- The bytes from `lo` to `hi` are in no recorded range. -/
def ApartFrom (ranges : List Range) (lo hi : ℕ) : Prop :=
  ∀ r ∈ ranges, ∀ x, lo ≤ x → x ≤ hi → ¬(r.lo ≤ x ∧ x ≤ r.hi)

variable {ranges : List Range} {lo hi size heapLo heapHi : ℕ}

theorem isAligned_iff (p : ℕ) : isAligned p = true ↔ ALIGNMENT ∣ p := by
  unfold isAligned ALIGNMENT
  rw [beq_iff_eq]
  omega

theorem overlaps_iff : overlaps lo hi ranges = true ↔
    ∃ r ∈ ranges, (r.lo ≤ lo ∧ lo ≤ r.hi) ∨ (r.lo ≤ hi ∧ hi ≤ r.hi) := by
  induction ranges with
  | nil => simp [overlaps]
  | cons p ranges ih =>
    simp only [overlaps, List.mem_cons, exists_eq_or_imp]
    split_ifs with hends
    · exact iff_of_true rfl (Or.inl hends)
    · rw [ih, or_iff_right hends]

/-- A range meets another one with one of its ends or contains it. -/
theorem apart_iff (hle : lo ≤ hi) : ApartFrom ranges lo hi ↔
    ∀ r ∈ ranges, ¬((r.lo ≤ lo ∧ lo ≤ r.hi) ∨ (r.lo ≤ hi ∧ hi ≤ r.hi)) ∧ ¬(lo < r.lo ∧ r.hi < hi) := by
  refine forall₂_congr fun r _ ↦ ⟨fun hnone ↦ ⟨?_, ?_⟩, fun ⟨hends, hwithin⟩ x hx hx' hr ↦ ?_⟩
  · rintro (hend | hend)
    · exact hnone lo (Nat.le_refl lo) hle hend
    · exact hnone hi hle (Nat.le_refl hi) hend
  · rintro ⟨hlo, hhi⟩
    have hrange := r.le
    exact hnone r.lo (Nat.le_of_lt hlo) (by omega) ⟨Nat.le_refl _, hrange⟩
  · omega

/-- What `add_range` returns for a payload in the heap. -/
theorem addRange_eq (hsize : 0 < size) (hlo : heapLo ≤ lo) (hhi : lo + size - 1 ≤ heapHi) :
    addRange heapLo heapHi true ranges lo size =
      if ALIGNMENT ∣ lo ∧ overlaps lo (lo + size - 1) ranges = false then
        some (1, payload lo size hsize :: ranges)
      else some (0, ranges) := by
  unfold addRange
  rw [dif_pos hsize]
  dsimp only
  have hheap : ¬(lo < heapLo ∨ heapHi < lo ∨ lo + size - 1 < heapLo ∨ heapHi < lo + size - 1) := by
    omega
  by_cases haligned : ALIGNMENT ∣ lo
  · rw [(isAligned_iff lo).mpr haligned, if_neg (by simp), if_neg hheap]
    cases overlaps lo (lo + size - 1) ranges <;> simp [haligned]
  · have hfalse : isAligned lo = false := by
      rw [← Bool.not_eq_true]
      exact mt (isAligned_iff lo).mp haligned
    rw [hfalse, if_pos (by rfl), if_neg fun hboth ↦ haligned hboth.1]

/-- `add_range` records precisely the payloads that are aligned and apart from the recorded ones, unless
a recorded one lies within the new one and no other meets it. -/
theorem addRange_iff (hsize : 0 < size) (hlo : heapLo ≤ lo) (hhi : lo + size - 1 ≤ heapHi) :
    ((ALIGNMENT ∣ lo ∧ ApartFrom ranges lo (lo + size - 1) →
        addRange heapLo heapHi true ranges lo size =
          some (1, payload lo size hsize :: ranges)) ∧
      (¬(ALIGNMENT ∣ lo ∧ ApartFrom ranges lo (lo + size - 1)) →
        addRange heapLo heapHi true ranges lo size = some (0, ranges))) ↔
    (ALIGNMENT ∣ lo → overlaps lo (lo + size - 1) ranges = false →
      ∀ r ∈ ranges, ¬(lo < r.lo ∧ r.hi < lo + size - 1)) := by
  have hle : lo ≤ lo + size - 1 := (payload lo size hsize).le
  have hapart : ApartFrom ranges lo (lo + size - 1) ↔ _ := apart_iff hle
  have hends : overlaps lo (lo + size - 1) ranges = false ↔ ∀ r ∈ ranges,
      ¬((r.lo ≤ lo ∧ lo ≤ r.hi) ∨ (r.lo ≤ lo + size - 1 ∧ lo + size - 1 ≤ r.hi)) := by
    rw [← Bool.not_eq_true, overlaps_iff, not_exists]
    exact forall_congr' fun r ↦ not_and
  rw [addRange_eq hsize hlo hhi]
  constructor
  · rintro ⟨-, hrefuses⟩ haligned hnone r hr hwithin
    have hmeets : ¬(ALIGNMENT ∣ lo ∧ ApartFrom ranges lo (lo + size - 1)) := fun hboth ↦
      ((hapart.mp hboth.2) r hr).2 hwithin
    have hcall := hrefuses hmeets
    rw [if_pos ⟨haligned, hnone⟩] at hcall
    exact absurd (Prod.mk.inj (Option.some.inj hcall)).1 Nat.one_ne_zero
  · intro hholds
    refine ⟨fun ⟨haligned, happart⟩ ↦ ?_, fun hmeets ↦ ?_⟩
    · rw [if_pos ⟨haligned, hends.mpr fun r hr ↦ (hapart.mp happart r hr).1⟩]
    · rw [if_neg]
      rintro ⟨haligned, hnone⟩
      exact hmeets ⟨haligned, hapart.mpr fun r hr ↦
        ⟨hends.mp hnone r hr, hholds haligned hnone r hr⟩⟩

/-- A payload of 8 bytes behind a recorded one. -/
theorem addRange_iff_behind :
    ((ALIGNMENT ∣ 24 ∧ ApartFrom [⟨16, 23, by decide⟩] 24 (24 + 8 - 1) →
        addRange 16 100 true [⟨16, 23, by decide⟩] 24 8 =
          some (1, payload 24 8 (by decide) :: [⟨16, 23, by decide⟩])) ∧
      (¬(ALIGNMENT ∣ 24 ∧ ApartFrom [⟨16, 23, by decide⟩] 24 (24 + 8 - 1)) →
        addRange 16 100 true [⟨16, 23, by decide⟩] 24 8 = some (0, [⟨16, 23, by decide⟩]))) ↔
    (ALIGNMENT ∣ 24 → overlaps 24 (24 + 8 - 1) [⟨16, 23, by decide⟩] = false →
      ∀ r ∈ ([⟨16, 23, by decide⟩] : List Range), ¬(24 < r.lo ∧ r.hi < 24 + 8 - 1)) :=
  addRange_iff (by decide) (by decide) (by decide)

/-- A payload around a recorded one is recorded. -/
theorem not_addRange_exact :
    ¬∀ (ranges : List Range) (lo size heapLo heapHi : ℕ), 0 < size → heapLo ≤ lo →
      lo + size - 1 ≤ heapHi → ¬(ALIGNMENT ∣ lo ∧ ApartFrom ranges lo (lo + size - 1)) →
        addRange heapLo heapHi true ranges lo size = some (0, ranges) := by
  intro hclaim
  have hcall := hclaim [⟨16, 23, by decide⟩] 8 24 8 100 (by decide) (by decide) (by decide)
    fun hboth ↦ hboth.2 ⟨16, 23, by decide⟩ List.mem_cons_self 16 (by decide) (by decide) (by decide)
  rw [addRange_eq (by decide) (by decide) (by decide), if_pos ⟨by decide, by decide⟩] at hcall
  exact absurd (Prod.mk.inj (Option.some.inj hcall)).1 Nat.one_ne_zero

end Jungle.MallocLab
