import Mathlib.Data.List.Pairwise
import Mathlib.Data.List.Basic

/-!
# Ledgers of ranges

An allocator hands out ranges of the natural numbers, as start and length, and takes them back. The
ranges it has handed out are in order (`Ledger`) if they are apart and made of usable numbers; a
number is free if it is usable and in none of them. Handing out a range of free numbers and taking a
range back keep a ledger in order.
-/

set_option autoImplicit false
set_option relaxedAutoImplicit false

namespace Jungle.Lib

/-- A range has the number. -/
def Covers (r : ℕ × ℕ) (x : ℕ) : Prop := r.1 ≤ x ∧ x < r.1 + r.2

/-- One of the ranges has the number. -/
def Covered (live : List (ℕ × ℕ)) (x : ℕ) : Prop := ∃ r ∈ live, Covers r x

/-- Two ranges have no number in common. -/
def Apart (r r' : ℕ × ℕ) : Prop := ∀ x, Covers r x → ¬Covers r' x

theorem Apart.symm {r r' : ℕ × ℕ} (h : Apart r r') : Apart r' r :=
  fun x hx hx' ↦ h x hx' hx

@[simp] theorem covered_nil (x : ℕ) : ¬Covered [] x := by
  rintro ⟨r, hr, -⟩
  exact List.not_mem_nil hr

@[simp] theorem covered_cons (r : ℕ × ℕ) (live : List (ℕ × ℕ)) (x : ℕ) :
    Covered (r :: live) x ↔ Covers r x ∨ Covered live x :=
  List.exists_mem_cons_iff ..

/-- The ranges are apart and made of usable numbers. -/
structure Ledger (usable : ℕ → Prop) (live : List (ℕ × ℕ)) : Prop where
  usable : ∀ x, Covered live x → usable x
  apart : live.Pairwise Apart

/-- A number that is usable and in no range. -/
def Free (usable : ℕ → Prop) (live : List (ℕ × ℕ)) (x : ℕ) : Prop := usable x ∧ ¬Covered live x

variable {usable : ℕ → Prop} {live live' : List (ℕ × ℕ)} {r : ℕ × ℕ}

theorem ledger_nil (usable : ℕ → Prop) : Ledger usable [] where
  usable x hx := absurd hx (covered_nil x)
  apart := List.Pairwise.nil

/-- Handing out a range of free numbers. -/
theorem Ledger.cons (h : Ledger usable live) (hr : ∀ x, Covers r x → Free usable live x) :
    Ledger usable (r :: live) where
  usable x hx := by
    rcases (covered_cons r live x).mp hx with hx | hx
    · exact (hr x hx).1
    · exact h.usable x hx
  apart := List.pairwise_cons.mpr ⟨fun r' hr' x hx hx' ↦ (hr x hx).2 ⟨r', hr', hx'⟩, h.apart⟩

theorem free_cons (x : ℕ) :
    Free usable (r :: live) x ↔ Free usable live x ∧ ¬Covers r x := by
  rw [Free, Free, covered_cons, not_or]
  tauto

theorem covered_perm (hperm : live.Perm live') (x : ℕ) : Covered live x ↔ Covered live' x :=
  exists_congr fun _ ↦ and_congr_left fun _ ↦ hperm.mem_iff

theorem free_perm (hperm : live.Perm live') (x : ℕ) : Free usable live x ↔ Free usable live' x := by
  rw [Free, Free, covered_perm hperm]

theorem Ledger.perm (h : Ledger usable live) (hperm : live.Perm live') : Ledger usable live' where
  usable x hx := h.usable x ((covered_perm hperm x).mpr hx)
  apart := (hperm.pairwise_iff fun h ↦ h.symm).mp h.apart

/-- Taking a range back. -/
theorem Ledger.tail (h : Ledger usable (r :: live)) : Ledger usable live where
  usable x hx := h.usable x ((covered_cons ..).mpr (Or.inr hx))
  apart := (List.pairwise_cons.mp h.apart).2

/-- The numbers of a range that is taken back become free. -/
theorem Ledger.free_tail (h : Ledger usable (r :: live)) (x : ℕ) :
    Free usable live x ↔ Free usable (r :: live) x ∨ Covers r x := by
  have hapart : Covers r x → ¬Covered live x := by
    rintro hx ⟨r', hr', hx'⟩
    exact (List.pairwise_cons.mp h.apart).1 r' hr' x hx hx'
  have husable : Covers r x → usable x := fun hx ↦ h.usable x ((covered_cons ..).mpr (Or.inl hx))
  rw [free_cons, Free]
  tauto

end Jungle.Lib
