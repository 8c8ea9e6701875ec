import Jungle.Paging.Basic
import Mathlib.Tactic.Common

/-!
# The bits of entries and addresses

The bit operations on entries and addresses as arithmetic, and what an entry for a page says: it is
present and leads to the page.
-/

set_option autoImplicit false
set_option relaxedAutoImplicit false

namespace Jungle.Paging

theorem pgOfs_eq (va : ℕ) : pgOfs va = va % 4096 := Nat.and_two_pow_sub_one_eq_mod va 12

theorem pteAddr_eq (pte : ℕ) : pteAddr pte = pte - pte % 4096 :=
  congrArg (pte - ·) (Nat.and_two_pow_sub_one_eq_mod pte 12)

theorem present_iff (pte : ℕ) : present pte ↔ pte % 2 = 1 := by
  have hand : pte &&& pteP = pte % 2 := Nat.and_one_is_mod pte
  rw [present, hand, decide_eq_true_iff]
  omega

theorem index_eq (la shift : ℕ) : (la >>> shift) &&& 0x1FF = la / 2 ^ shift % 512 := by
  rw [Nat.shiftRight_eq_div_pow]
  exact Nat.and_two_pow_sub_one_eq_mod _ 9

/-- Flags go into the low bits of an aligned address. -/
theorem or_flags {address flags : ℕ} (haddress : address % 4096 = 0) (hflags : flags < 4096) :
    address ||| flags = address + flags := by
  have hsplit : address = 2 ^ 12 * (address / 4096) := by omega
  rw [hsplit]
  exact (Nat.two_pow_add_eq_or_of_lt hflags _).symm

/-- What can be the address of a page of the kernel. -/
structure IsKernelPage (page : ℕ) : Prop where
  kernel : kernBase ≤ page
  word : page < 2 ^ 64
  aligned : page % 4096 = 0

/-- An entry with flags leads to the page and is present if its flag says so. -/
theorem entry_of_page {page flags : ℕ} (hpage : IsKernelPage page) (hflags : flags < 4096) :
    ptov (pteAddr (vtop page ||| flags)) = page ∧
      (present (vtop page ||| flags) ↔ flags % 2 = 1) := by
  obtain ⟨hkernel, hword, haligned⟩ := hpage
  unfold kernBase at hkernel
  have hvtop : vtop page % 4096 = 0 := by
    unfold vtop kernBase
    omega
  rw [or_flags hvtop hflags, pteAddr_eq, present_iff]
  unfold ptov vtop kernBase at *
  omega

theorem IsFreePage.isKernelPage {s : Machine} {page : ℕ} (h : IsFreePage s page) :
    IsKernelPage page :=
  ⟨h.1, h.2.1, (pgOfs_eq page).symm.trans h.2.2.1⟩

/-- The entry that a walk makes for a new table leads to it. -/
theorem table_entry {page : ℕ} (hpage : IsKernelPage page) :
    ptov (pteAddr (vtop page ||| pteU ||| pteW ||| pteP)) = page ∧
      present (vtop page ||| pteU ||| pteW ||| pteP) := by
  have hflags : vtop page ||| pteU ||| pteW ||| pteP = vtop page ||| 7 := by
    rw [Nat.or_assoc, Nat.or_assoc]
    rfl
  rw [hflags]
  obtain ⟨haddress, hpresent⟩ := entry_of_page hpage (show 7 < 4096 by decide)
  exact ⟨haddress, hpresent.mpr rfl⟩

/-- The entry that maps a page leads to it. -/
theorem page_entry {page : ℕ} (hpage : IsKernelPage page) (rw : Bool) :
    ptov (pteAddr (vtop page ||| pteP ||| (if rw then pteW else 0) ||| pteU)) = page ∧
      present (vtop page ||| pteP ||| (if rw then pteW else 0) ||| pteU) := by
  have hflags : vtop page ||| pteP ||| (if rw then pteW else 0) ||| pteU =
      vtop page ||| (if rw then 7 else 5) := by
    rw [Nat.or_assoc, Nat.or_assoc]
    cases rw <;> rfl
  rw [hflags]
  obtain ⟨haddress, hpresent⟩ := entry_of_page hpage
    (show (if rw then 7 else 5) < 4096 by cases rw <;> decide)
  exact ⟨haddress, hpresent.mpr (by cases rw <;> rfl)⟩

theorem not_present_zero : ¬present 0 := by decide

end Jungle.Paging
