import Jungle.Lib.Store
import Mathlib.Data.List.Count
import Mathlib.Data.List.Nodup

/-!
# Counting the cells of a store

The number of listed addresses whose cell has a property, and how it changes when a cell is allocated,
changed or given back.
-/

set_option autoImplicit false
set_option relaxedAutoImplicit false

namespace Jungle.Lib.Store

variable {Cell : Type*} {s : Store Cell} {addrs : List ℕ} {P Q : Cell → Bool} {a : ℕ}
  {cell : Cell}

/-- The number of listed addresses whose cell has a property. -/
def census (s : Store Cell) (addrs : List ℕ) (P : Cell → Bool) : ℕ :=
  addrs.countP fun a ↦ (s a).any P

theorem census_congr {s' : Store Cell} (h : ∀ a ∈ addrs, s' a = s a) :
    s'.census addrs P = s.census addrs P :=
  List.countP_congr fun a ha ↦ by rw [h a ha]

theorem census_le (h : ∀ cell, P cell = true → Q cell = true) :
    s.census addrs P ≤ s.census addrs Q := by
  refine List.countP_mono_left fun a _ ha ↦ ?_
  obtain ⟨cell, hcell, hP⟩ := Option.any_eq_true _ _ |>.mp ha
  exact (Option.any_eq_true _ _).mpr ⟨cell, hcell, h cell hP⟩

theorem census_pos_iff :
    0 < s.census addrs P ↔ ∃ a ∈ addrs, ∃ cell, s a = some cell ∧ P cell = true := by
  simp only [census, List.countP_pos_iff, Option.any_eq_true]

/-- A new cell. -/
theorem census_put_cons (h : a ∉ addrs) :
    (s.put a cell).census (a :: addrs) P = s.census addrs P + if P cell then 1 else 0 := by
  have hrest : (s.put a cell).census addrs P = s.census addrs P :=
    census_congr fun b hb ↦ put_of_ne s (ne_of_mem_of_not_mem hb h) cell
  rw [census, List.countP_cons, put_self, Option.any_some]
  exact congrArg (· + _) hrest

/-- A listed cell, and the others. -/
theorem census_erase (hmem : a ∈ addrs) (hcell : s a = some cell) :
    s.census addrs P = s.census (addrs.erase a) P + if P cell then 1 else 0 := by
  have hperm := (List.perm_cons_erase hmem).countP_eq fun a ↦ (s a).any P
  rw [census, hperm, List.countP_cons, hcell, Option.any_some]
  rfl

/-- A cell that changes. -/
theorem census_put (P : Cell → Bool) (cell' : Cell) (hnodup : addrs.Nodup) (hmem : a ∈ addrs) (hcell : s a = some cell) :
    (s.put a cell').census addrs P + (if P cell then 1 else 0) =
      s.census addrs P + if P cell' then 1 else 0 := by
  have hrest : (s.put a cell').census (addrs.erase a) P = s.census (addrs.erase a) P :=
    census_congr fun b hb ↦ put_of_ne s ((hnodup.mem_erase_iff.mp hb).1) cell'
  rw [census_erase hmem hcell, census_erase hmem (put_self s a cell'), hrest]
  omega

/-- A cell that is given back. -/
theorem census_free (P : Cell → Bool) (hnodup : addrs.Nodup) (hmem : a ∈ addrs) (hcell : s a = some cell) :
    (s.free a).census (addrs.erase a) P + (if P cell then 1 else 0) = s.census addrs P := by
  have hrest : (s.free a).census (addrs.erase a) P = s.census (addrs.erase a) P :=
    census_congr fun b hb ↦ free_of_ne s (hnodup.mem_erase_iff.mp hb).1
  rw [census_erase hmem hcell, hrest]

end Jungle.Lib.Store
