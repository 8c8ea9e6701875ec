import Jungle.Lib.Store
import Mathlib.Data.Set.Finite.Basic
import Mathlib.Order.Lattice.Nat

/-!
# Allocators

An allocator is a function of the store, with `none` for a null pointer. `Allocates` says that it
returns the address of no cell as long as there is one. A store with infinitely many free addresses
(`Spacious`) stays so whatever is allocated and freed.
-/

set_option autoImplicit false
set_option relaxedAutoImplicit false

namespace Jungle.Lib

variable {Cell : Type*} {s : Store Cell}

/-- An allocator returns the address of no cell as long as there is one. -/
def Allocates (malloc : Store Cell → Option ℕ) : Prop :=
  ∀ s : Store Cell, (∃ a, s a = none) → ∃ a, malloc s = some a ∧ s a = none

/-- Infinitely many addresses hold no cell. -/
def Spacious (s : Store Cell) : Prop := {a | s a = none}.Infinite

theorem Spacious.put (h : Spacious s) (a : ℕ) (cell : Cell) : Spacious (s.put a cell) := by
  refine (h.sdiff (Set.finite_singleton a)).mono ?_
  rintro b ⟨hb, hne⟩
  exact (Store.put_of_ne s hne cell).trans hb

theorem Spacious.free (h : Spacious s) (a : ℕ) : Spacious (s.free a) := by
  refine h.mono fun b hb ↦ ?_
  rw [Set.mem_ofPred_eq, Store.free_apply]
  split_ifs
  · rfl
  · exact hb

/-- An allocator finds an address in a store with infinitely many. -/
theorem Spacious.exists_malloc (h : Spacious s) {malloc : Store Cell → Option ℕ}
    (hmalloc : Allocates malloc) : ∃ a, malloc s = some a ∧ s a = none :=
  hmalloc s h.nonempty

theorem spacious_empty : Spacious (Store.empty : Store Cell) :=
  Set.infinite_univ.mono fun _ _ ↦ rfl

/-- The allocator that takes the first free address. -/
noncomputable def firstFree (s : Store Cell) : Option ℕ := some (sInf {a | s a = none})

theorem allocates_firstFree : Allocates (firstFree : Store Cell → Option ℕ) :=
  fun _ hfree ↦ ⟨_, rfl, Nat.sInf_mem hfree⟩

end Jungle.Lib
