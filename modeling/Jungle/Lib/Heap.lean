import Mathlib.Logic.Equiv.Basic
import Mathlib.Data.List.Nodup
import Mathlib.Data.Nat.Notation

/-!
# Binary heaps

A heap is a sequence of items, counted from 1, in which no item is less than its children: those of the
item at `j` are at `2 * j` and `2 * j + 1`. An item that may be less than its children goes down by being
swapped with the largest of them (`IsHeapExcept.sift`). The largest item of a heap is the first one, and
heap sort swaps it behind the rest again and again (`InPlace`).
-/

set_option autoImplicit false
set_option relaxedAutoImplicit false

namespace Jungle.Lib

variable {α : Type*}

/-- The position `c` is that of a child of the item at `j`. -/
def IsChild (c j : ℕ) : Prop := c = 2 * j ∨ c = 2 * j + 1

/-- From `lo` on, no item is less than its children among the first `n` items. -/
def IsHeap (le : α → α → Prop) (f : ℕ → α) (lo n : ℕ) : Prop :=
  ∀ j c, lo ≤ j → IsChild c j → c ≤ n → le (f c) (f j)

/-- The item at `i` may be less than its children, but its parent is not. -/
structure IsHeapExcept (le : α → α → Prop) (f : ℕ → α) (lo n i : ℕ) : Prop where
  children : ∀ j c, lo ≤ j → j ≠ i → IsChild c j → c ≤ n → le (f c) (f j)
  parent : ∀ j c, lo ≤ j → IsChild i j → IsChild c i → c ≤ n → le (f c) (f j)

/-- No item behind the first `n` ones is less than one in front of it. -/
def InPlace (le : α → α → Prop) (f : ℕ → α) (n count : ℕ) : Prop :=
  ∀ a b, 1 ≤ a → a ≤ b → n < b → b ≤ count → le (f a) (f b)

/-- The first `n` items have been permuted. -/
def Rearranged (n : ℕ) (f f' : ℕ → α) : Prop :=
  ∃ σ : Equiv.Perm ℕ, (∀ k, ¬(1 ≤ k ∧ k ≤ n) → σ k = k) ∧ f' = f ∘ σ

variable {le : α → α → Prop} {f f' f'' : ℕ → α} {lo n i k count : ℕ}

/-! ### Rearranging -/

namespace Rearranged

theorem refl (n : ℕ) (f : ℕ → α) : Rearranged n f f := ⟨Equiv.refl ℕ, fun _ _ ↦ rfl, rfl⟩

theorem trans (h : Rearranged n f f') (h' : Rearranged n f' f'') : Rearranged n f f'' := by
  obtain ⟨σ, hσ, rfl⟩ := h
  obtain ⟨τ, hτ, rfl⟩ := h'
  refine ⟨τ.trans σ, fun k hk ↦ ?_, rfl⟩
  rw [Equiv.trans_apply, hτ k hk, hσ k hk]

theorem mono (h : Rearranged n f f') (hle : n ≤ count) : Rearranged count f f' := by
  obtain ⟨σ, hσ, rfl⟩ := h
  exact ⟨σ, fun k hk ↦ hσ k (by omega), rfl⟩

theorem swap (f : ℕ → α) (hi : 1 ≤ i ∧ i ≤ n) (hk : 1 ≤ k ∧ k ≤ n) :
    Rearranged n f (f ∘ Equiv.swap i k) := by
  refine ⟨Equiv.swap i k, fun j hj ↦ Equiv.swap_apply_of_ne_of_ne ?_ ?_, rfl⟩
  · rintro rfl
    exact hj hi
  · rintro rfl
    exact hj hk

/-- A permutation that moves only the first items keeps them together. -/
theorem inside {σ : Equiv.Perm ℕ} (hσ : ∀ k, ¬(1 ≤ k ∧ k ≤ n) → σ k = k) (hk : 1 ≤ k ∧ k ≤ n) :
    1 ≤ σ k ∧ σ k ≤ n := by
  by_contra hout
  have hfix : σ k = k := σ.injective (hσ (σ k) hout)
  exact hout (hfix.symm ▸ hk)

/-- The items as a list. -/
theorem perm (h : Rearranged n f f') : ((List.range n).map fun k ↦ f' (k + 1)).Perm
    ((List.range n).map fun k ↦ f (k + 1)) := by
  obtain ⟨σ, hσ, rfl⟩ := h
  have hpositions : ((List.range n).map fun k ↦ σ (k + 1)).Perm ((List.range n).map (· + 1)) := by
    refine (List.perm_ext_iff_of_nodup ?_ ?_).mpr fun a ↦ ?_
    · exact List.nodup_range.map fun _ _ hxy ↦ Nat.succ.inj (σ.injective hxy)
    · exact List.nodup_range.map fun _ _ hxy ↦ Nat.succ.inj hxy
    · simp only [List.mem_map, List.mem_range]
      constructor
      · rintro ⟨k, hk, rfl⟩
        have hin := inside hσ (k := k + 1) (by omega)
        exact ⟨σ (k + 1) - 1, by omega, by omega⟩
      · rintro ⟨k, hk, rfl⟩
        have hfix : ∀ j, ¬(1 ≤ j ∧ j ≤ n) → σ.symm j = j := fun j hj ↦ by
          rw [Equiv.symm_apply_eq, hσ j hj]
        have hin := inside hfix (k := k + 1) (by omega)
        refine ⟨σ.symm (k + 1) - 1, by omega, ?_⟩
        rw [Nat.sub_add_cancel hin.1, Equiv.apply_symm_apply]
  have hitems := hpositions.map f
  rwa [List.map_map, List.map_map] at hitems

end Rearranged

/-! ### Sifting -/

theorem isHeap_of_lt (hlo : n < 2 * lo) : IsHeap le f lo n := by
  intro j c hj hc hn
  unfold IsChild at hc
  omega

/-- The item in front of a heap. -/
theorem IsHeap.except (h : IsHeap le f (i + 1) n) (hi : 0 < i) : IsHeapExcept le f i n i where
  children j c hj hne := h j c (by omega)
  parent j c hj hij := by
    unfold IsChild at hij
    omega

/-- An item that is not less than its children. -/
theorem IsHeapExcept.isHeap (h : IsHeapExcept le f lo n i)
    (hmax : ∀ c, IsChild c i → c ≤ n → le (f c) (f i)) : IsHeap le f lo n := by
  intro j c hj hc hn
  by_cases hji : j = i
  · subst hji
    exact hmax c hc hn
  · exact h.children j c hj hji hc hn

/-- The item goes down to the place of the largest child. -/
theorem IsHeapExcept.sift (h : IsHeapExcept le f lo n i) (hi : 0 < i) (hlo : lo ≤ i)
    (hk : IsChild k i) (hup : le (f i) (f k)) (hmax : ∀ c, IsChild c i → c ≤ n → le (f c) (f k))
    (hkn : k ≤ n) : IsHeapExcept le (f ∘ Equiv.swap i k) lo n k := by
  unfold IsChild at hk
  have hother : ∀ c, c ≠ i → c ≠ k → (f ∘ Equiv.swap i k) c = f c := fun c hci hck ↦
    congrArg f (Equiv.swap_apply_of_ne_of_ne hci hck)
  have hleft : (f ∘ Equiv.swap i k) i = f k := congrArg f (Equiv.swap_apply_left i k)
  have hright : (f ∘ Equiv.swap i k) k = f i := congrArg f (Equiv.swap_apply_right i k)
  constructor
  · intro j c hj hjk hc hn
    by_cases hji : j = i
    · subst hji
      rw [hleft]
      by_cases hck : c = k
      · rw [hck, hright]
        exact hup
      · rw [hother c (by unfold IsChild at hc; omega) hck]
        exact hmax c hc hn
    · rw [hother j hji hjk]
      by_cases hci : c = i
      · subst hci
        rw [hleft]
        exact h.parent j k hj hc hk hkn
      · rw [hother c hci (by unfold IsChild at hc; omega)]
        exact h.children j c hj hji hc hn
  · intro j c hj hkj hc hn
    obtain rfl : j = i := by
      unfold IsChild at hkj
      omega
    unfold IsChild at hc
    rw [hleft, hother c (by omega) (by omega)]
    exact h.children k c (by omega) (by omega) hc hn

/-! ### Sorting -/

/-- The first item of a heap is the largest. -/
theorem IsHeap.le_root (h : IsHeap le f 1 n) (hrefl : ∀ a, le a a)
    (htrans : ∀ a b c, le a b → le b c → le a c) (k : ℕ) (hk : 1 ≤ k) (hn : k ≤ n) :
    le (f k) (f 1) := by
  induction k using Nat.strongRecOn with
  | ind k ih =>
    rcases Nat.eq_or_lt_of_le hk with rfl | hlt
    · exact hrefl (f 1)
    · have hchild : IsChild k (k / 2) := by
        unfold IsChild
        omega
      exact htrans _ _ _ (h (k / 2) k (by omega) hchild hn) (ih (k / 2) (by omega) (by omega) (by omega))

/-- The first item of a heap is swapped with the last one. -/
theorem IsHeap.swap_root (h : IsHeap le f 1 (n + 1)) :
    IsHeapExcept le (f ∘ Equiv.swap 1 (n + 1)) 1 n 1 := by
  have hother : ∀ c, c ≠ 1 → c ≠ n + 1 → (f ∘ Equiv.swap 1 (n + 1)) c = f c := fun c h1 hn ↦
    congrArg f (Equiv.swap_apply_of_ne_of_ne h1 hn)
  constructor
  · intro j c hj hne hc hn
    unfold IsChild at hc
    rw [hother j hne (by omega), hother c (by omega) (by omega)]
    exact h j c hj hc (by omega)
  · intro j c hj hij
    unfold IsChild at hij
    omega

theorem inPlace_self (le : α → α → Prop) (f : ℕ → α) (n : ℕ) : InPlace le f n n := by
  intro a b _ _ hlt hle
  omega

/-- The largest item of a heap has its place behind the others. -/
theorem InPlace.swap_root (h : InPlace le f (n + 1) count) (hheap : IsHeap le f 1 (n + 1))
    (hrefl : ∀ a, le a a) (htrans : ∀ a b c, le a b → le b c → le a c) :
    InPlace le (f ∘ Equiv.swap 1 (n + 1)) n count := by
  intro a b ha hab hlt hle
  have hin : 1 ≤ Equiv.swap 1 (n + 1) a ∧
      (Equiv.swap 1 (n + 1) a ≤ n + 1 ∨ Equiv.swap 1 (n + 1) a = a) := by
    rw [Equiv.swap_apply_def]
    split_ifs <;> omega
  rcases Nat.eq_or_lt_of_le (Nat.succ_le_of_lt hlt) with rfl | hlt'
  · rw [Function.comp_apply, Function.comp_apply, Equiv.swap_apply_right]
    exact hheap.le_root hrefl htrans _ hin.1 (by omega)
  · rw [Function.comp_apply, Function.comp_apply,
      Equiv.swap_apply_of_ne_of_ne (show b ≠ 1 by omega) (show b ≠ n + 1 by omega)]
    exact h _ b hin.1 (by omega) hlt' hle

/-- Rearranging the items in front. -/
theorem InPlace.rearrange (h : InPlace le f n count) (hσ : Rearranged n f f') :
    InPlace le f' n count := by
  obtain ⟨σ, hfix, rfl⟩ := hσ
  intro a b ha hab hlt hle
  rw [Function.comp_apply, Function.comp_apply, hfix b (by omega)]
  by_cases han : a ≤ n
  · have hin := Rearranged.inside hfix ⟨ha, han⟩
    exact h _ b hin.1 (by omega) hlt hle
  · rw [hfix a (by omega)]
    exact h a b ha hab hlt hle

end Jungle.Lib
