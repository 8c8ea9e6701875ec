import Mathlib.Logic.Function.Basic
import Mathlib.Data.Nat.Notation
import Mathlib.Tactic.SplitIfs

/-!
# Ring buffers

A buffer of `size` slots with a position where the next item is written and one where the next item is
read, each of which moves on with `advance`. It is empty when they are the same, and full when writing
would make them the same. `contents` are the items in it, the next one to be read first.
-/

set_option autoImplicit false
set_option relaxedAutoImplicit false

namespace Jungle.Lib.RingBuffer

variable {Item : Type*} {size head tail : ℕ} {buf : ℕ → Item}

/-- The position after a position. -/
def advance (size pos : ℕ) : ℕ := (pos + 1) % size

/-- The number of items in the buffer. -/
def count (size head tail : ℕ) : ℕ := if tail ≤ head then head - tail else head + size - tail

/-- The position some places after a position. -/
def slot (size pos i : ℕ) : ℕ := if pos + i < size then pos + i else pos + i - size

/-- The items in the buffer, in the order in which they are read. -/
def contents (size : ℕ) (buf : ℕ → Item) (head tail : ℕ) : List Item :=
  (List.range (count size head tail)).map fun i ↦ buf (slot size tail i)

theorem advance_lt (hpos : head < size) : advance size head < size :=
  Nat.mod_lt _ (Nat.zero_lt_of_lt hpos)

theorem advance_eq (hpos : head < size) :
    advance size head = if head + 1 = size then 0 else head + 1 := by
  rw [advance]
  split_ifs with h
  · rw [h, Nat.mod_self]
  · exact Nat.mod_eq_of_lt (by omega)

/-- Writing and reading positions that are the same: the buffer is empty. -/
theorem contents_self (size : ℕ) (buf : ℕ → Item) (pos : ℕ) : contents size buf pos pos = [] := by
  simp [contents, count]

/-- Reading the first item. -/
theorem contents_read (hhead : head < size) (htail : tail < size) (hne : head ≠ tail) :
    contents size buf head tail = buf tail :: contents size buf head (advance size tail) := by
  have hcount : count size head tail = count size head (advance size tail) + 1 := by
    simp only [count, advance_eq htail]
    split_ifs <;> omega
  rw [contents, hcount, List.range_succ_eq_map, List.map_cons, List.map_map]
  have hfirst : slot size tail 0 = tail := by
    rw [slot, Nat.add_zero, if_pos htail]
  have hlater : ∀ i ∈ List.range (count size head (advance size tail)),
      slot size tail (i + 1) = slot size (advance size tail) i := by
    intro i hi
    have hlt := List.mem_range.mp hi
    simp only [count, slot, advance_eq htail] at hlt ⊢
    split_ifs at hlt ⊢ <;> omega
  rw [hfirst, contents]
  congr 1
  exact List.map_congr_left fun i hi ↦ congrArg buf (hlater i hi)

/-- Writing an item when the buffer is not full. -/
theorem contents_write (hhead : head < size) (htail : tail < size)
    (hfull : advance size head ≠ tail) (item : Item) :
    contents size (Function.update buf head item) (advance size head) tail =
      contents size buf head tail ++ [item] := by
  have hcount : count size (advance size head) tail = count size head tail + 1 := by
    rw [advance_eq hhead] at hfull ⊢
    simp only [count]
    split_ifs at hfull ⊢ <;> omega
  rw [contents, hcount, List.range_succ, List.map_append, List.map_singleton]
  have hlast : slot size tail (count size head tail) = head := by
    simp only [slot, count]
    split_ifs <;> omega
  have hsame : ∀ i ∈ List.range (count size head tail), slot size tail i ≠ head := by
    intro i hi
    have hlt := List.mem_range.mp hi
    simp only [slot, count] at hlt ⊢
    split_ifs at hlt ⊢ <;> omega
  rw [hlast, Function.update_self, contents]
  congr 1
  exact List.map_congr_left fun i hi ↦ Function.update_of_ne (hsame i hi) ..

end Jungle.Lib.RingBuffer
