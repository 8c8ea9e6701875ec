import Jungle.Lib.MachineInt
import Jungle.RedBlack.WellFormed
import Mathlib.Algebra.Order.Ring.Int

/-!
# Conversion to an array

`rbtree_to_array` writes the keys of a tree into an array and does not look at the number of slots.
`Least` is what it is to do: the first slots hold the least keys in ascending order. The index is an
`int` that wraps, and a write outside of the array faults.
-/

set_option autoImplicit false
set_option relaxedAutoImplicit false

namespace Jungle.RedBlack

open Jungle.Lib

/-- `arr[(*index)++] = key` -/
def writeNext : List ℤ × ℤ → ℤ → Option (List ℤ × ℤ)
  | (arr, index), key =>
    if 0 ≤ index ∧ index < arr.length then
      some (arr.set index.toNat key, int32 (index + 1))
    else none

namespace RbTree

/-- `inorder_traversal(node, arr, index, t)`: the array and the index. -/
def inorderTraversal (t : RbTree) : ℕ → ℕ → List ℤ × ℤ → Option (List ℤ × ℤ)
  | 0, _, _ => none
  | fuel + 1, node, s => do
    if node = t.nil then return s
    else
      let s ← inorderTraversal t fuel (← t.child .left node) s
      let s ← writeNext s (← t.key node)
      inorderTraversal t fuel (← t.child .right node) s

/-- `rbtree_to_array(t, arr, n)`: the array and the returned number. -/
def rbtreeToArray (fuel : ℕ) (t : RbTree) (arr : List ℤ) (_n : ℕ) : Option (List ℤ × ℤ) :=
  t.inorderTraversal fuel t.root (arr, 0)

end RbTree

open BinaryTree

/-- The first `count` slots of an array hold the least keys in ascending order, and the other slots
are as they were. -/
structure Least (keys : List ℤ) (count : ℕ) (arr arr' : List ℤ) : Prop where
  ascending : (arr'.take count).Pairwise (· ≤ ·)
  least : ∃ others, (arr'.take count ++ others).Perm keys ∧
    ∀ k ∈ arr'.take count, ∀ k' ∈ others, k ≤ k'
  length : arr'.length = arr.length
  rest : arr'.drop count = arr.drop count

/-- The keys of a tree. -/
def keys (tree : Tree) : List ℤ := (entries tree).map Prod.snd

variable {t : RbTree} {tree : Tree} {nodes : Store Node} {arr arr' : List ℤ} {nil parent i : ℕ}

@[simp] theorem keys_nil : keys .nil = [] := rfl

@[simp] theorem keys_node (c : Color) (a : ℕ) (k : ℤ) (left right : Tree) :
    keys (.node (c, a, k) left right) = keys left ++ k :: keys right := by
  simp [keys, entries]

/-- The traversal writes the keys in order. -/
theorem inorderTraversal_eq (h : Rep t.nodes t.nil parent tree) (hnil : t.nil ∉ addresses tree)
    {fuel : ℕ} (hfuel : (keys tree).length < fuel) (s : List ℤ × ℤ) :
    t.inorderTraversal fuel (ptr t.nil tree) s = (keys tree).foldlM writeNext s := by
  obtain ⟨fuel, rfl⟩ : ∃ n, fuel = n + 1 := ⟨fuel - 1, by omega⟩
  induction tree generalizing parent fuel s with
  | nil => simp [RbTree.inorderTraversal]
  | node v left right ihLeft ihRight =>
    obtain ⟨c, a, k⟩ := v
    obtain ⟨hcell, hleft, hright⟩ := h
    rw [mem_addresses_node, not_or, not_or] at hnil
    rw [keys_node, List.length_append, List.length_cons] at hfuel
    obtain ⟨fuel, rfl⟩ : ∃ n, fuel = n + 1 := ⟨fuel - 1, by omega⟩
    have hne : a ≠ t.nil := fun heq ↦ hnil.1 heq.symm
    rw [RbTree.inorderTraversal, keys_node, List.foldlM_append]
    dsimp only [ptr]
    simp only [if_neg hne, RbTree.child, RbTree.key, hcell, Option.map_some, Option.bind_eq_bind,
      Option.bind_some, Node.child, ihLeft hleft hnil.2.1 s fuel (by omega), List.foldlM_cons,
      ihRight hright hnil.2.2 _ fuel (by omega)]

/-- Keys that fit are written one after the other. -/
theorem writes_fit (ks : List ℤ) (hfit : i + ks.length ≤ arr.length)
    (hint : ((i + ks.length : ℕ) : ℤ) ≤ intMax) :
    ks.foldlM writeNext (arr, (i : ℤ)) =
      some (arr.take i ++ ks ++ arr.drop (i + ks.length), ((i + ks.length : ℕ) : ℤ)) := by
  induction ks generalizing arr i with
  | nil => simp
  | cons k ks ih =>
    rw [List.length_cons] at hfit hint ⊢
    have hindex : int32 ((i : ℤ) + 1) = ((i + 1 : ℕ) : ℤ) := by
      push_cast
      exact int32_of_mem (by unfold intMin; omega) (by push_cast at hint; omega)
    have hwrite : writeNext (arr, (i : ℤ)) k = some (arr.set i k, ((i + 1 : ℕ) : ℤ)) := by
      rw [writeNext, if_pos (by omega), Int.toNat_natCast, hindex]
    have hlt : i < arr.length := by omega
    rw [List.foldlM_cons, hwrite, Option.bind_eq_bind, Option.bind_some,
      ih (by rw [List.length_set]; omega) (by convert hint using 2; omega)]
    have htake : (arr.set i k).take (i + 1) = arr.take i ++ [k] := by
      rw [List.take_add_one, List.take_set_of_le le_rfl, List.getElem?_set_self hlt]
      rfl
    rw [htake, List.drop_set_of_lt (by omega), List.append_assoc (arr.take i),
      Nat.add_assoc, Nat.add_comm 1]
    rfl

/-- Keys that do not fit fault, or the index wraps. -/
theorem writes_overflow (ks : List ℤ) (hi : i ≤ arr.length) (hmax : (i : ℤ) ≤ intMax)
    (hover : ¬(i + ks.length ≤ arr.length ∧ ((i + ks.length : ℕ) : ℤ) ≤ intMax)) :
    ks.foldlM writeNext (arr, (i : ℤ)) = none ∨
      ∃ arr', ks.foldlM writeNext (arr, (i : ℤ)) = some (arr', intMin) := by
  induction ks generalizing arr i with
  | nil => exact absurd ⟨hi, hmax⟩ hover
  | cons k ks ih =>
    rw [List.length_cons] at hover
    rcases hi.lt_or_eq with hlt | rfl
    · have hwrite : writeNext (arr, (i : ℤ)) k = some (arr.set i k, int32 (i + 1)) := by
        rw [writeNext, if_pos (by omega), Int.toNat_natCast]
      rw [List.foldlM_cons, hwrite, Option.bind_eq_bind, Option.bind_some]
      rcases hmax.lt_or_eq with hless | heq
      · have hindex : int32 ((i : ℤ) + 1) = ((i + 1 : ℕ) : ℤ) := by
          push_cast
          exact int32_of_mem (by unfold intMin; omega) (by omega)
        rw [hindex]
        refine ih (by rw [List.length_set]; omega) (by push_cast; omega) ?_
        rw [List.length_set, Nat.add_assoc, Nat.add_comm 1]
        exact hover
      · rw [heq, int32_intMax_succ]
        cases ks with
        | nil => exact Or.inr ⟨_, rfl⟩
        | cons k' ks => exact Or.inl rfl
    · refine Or.inl ?_
      rw [List.foldlM_cons, writeNext, if_neg (by simp)]
      rfl

/-- A well-formed tree is written as the array of its keys. -/
theorem WellFormed.rbtreeToArray_eq (h : WellFormed t tree) (arr : List ℤ) {fuel n : ℕ}
    (hfuel : (keys tree).length < fuel) :
    t.rbtreeToArray fuel arr n = (keys tree).foldlM writeNext (arr, 0) := by
  rw [RbTree.rbtreeToArray, h.holds.root]
  exact inorderTraversal_eq h.holds.rep h.holds.nil hfuel (arr, 0)

/-- A call that does not fit does not return a number of keys. -/
theorem WellFormed.not_returns (h : WellFormed t tree)
    (hover : ¬((keys tree).length ≤ arr.length ∧ ((keys tree).length : ℤ) ≤ intMax)) {n m : ℕ} :
    ¬Returns (fun fuel ↦ t.rbtreeToArray fuel arr n) (arr', (m : ℤ)) := by
  rintro ⟨bound, hbound⟩
  have hcall : t.rbtreeToArray (bound + (keys tree).length + 1) arr n = some (arr', (m : ℤ)) :=
    hbound _ (by omega)
  rw [h.rbtreeToArray_eq arr (by omega)] at hcall
  have hover' := writes_overflow (i := 0) (keys tree) (Nat.zero_le arr.length)
    (by decide) (by rwa [Nat.zero_add])
  rw [Nat.cast_zero, hcall] at hover'
  rcases hover' with hnone | ⟨arr'', heq⟩
  · exact absurd hnone (Option.some_ne_none _)
  · have hm : (m : ℤ) = intMin := congrArg Prod.snd (Option.some.inj heq)
    unfold intMin at hm
    omega

/-- The conversion respects the array if and only if all keys of the tree fit into it and their number
is an `int`. -/
theorem toArray_iff (h : WellFormed t tree) (arr : List ℤ) :
    (∃ arr', Returns (fun fuel ↦ t.rbtreeToArray fuel arr arr.length)
        (arr', ((min (keys tree).length arr.length : ℕ) : ℤ)) ∧
      Least (keys tree) (min (keys tree).length arr.length) arr arr') ↔
      (keys tree).length ≤ arr.length ∧ ((keys tree).length : ℤ) ≤ intMax := by
  constructor
  · rintro ⟨arr', hreturns, -⟩
    by_contra hover
    exact h.not_returns hover hreturns
  · rintro ⟨hfit, hint⟩
    have hfit' : 0 + (keys tree).length ≤ arr.length := by rwa [Nat.zero_add]
    have hwrites := writes_fit (keys tree) hfit' (by rwa [Nat.zero_add])
    rw [Nat.zero_add, List.take_zero, List.nil_append, Nat.cast_zero] at hwrites
    rw [min_eq_left hfit]
    refine ⟨keys tree ++ arr.drop (keys tree).length, ⟨(keys tree).length, fun fuel hfuel ↦ ?_⟩,
      ?_, ⟨[], ?_, ?_⟩, ?_, ?_⟩
    · exact (h.rbtreeToArray_eq arr hfuel).trans hwrites
    · rw [List.take_left]
      exact List.pairwise_map.mpr h.sorted
    · rw [List.take_left, List.append_nil]
    · exact fun _ _ k' hk' ↦ absurd hk' List.not_mem_nil
    · rw [List.length_append, List.length_drop]
      omega
    · rw [List.drop_left]

/-- Five keys in an array of six slots. -/
theorem toArray_iff_leaning : ∃ arr',
    Returns (fun fuel ↦ leaning.rbtreeToArray fuel [0, 0, 0, 0, 0, 9] 6) (arr', 5) ∧
      Least (keys leaningTree) 5 [0, 0, 0, 0, 0, 9] arr' :=
  (toArray_iff leaning_wellFormed [0, 0, 0, 0, 0, 9]).mpr (by decide)

/-- Five keys do not fit into three slots. -/
theorem not_toArray : ¬∀ (t : RbTree) (tree : Tree) (arr : List ℤ), WellFormed t tree →
    ∃ arr', Returns (fun fuel ↦ t.rbtreeToArray fuel arr arr.length)
        (arr', ((min (keys tree).length arr.length : ℕ) : ℤ)) ∧
      Least (keys tree) (min (keys tree).length arr.length) arr arr' := by
  intro hall
  obtain ⟨arr', hreturns, -⟩ := hall leaning leaningTree [0, 0, 0] leaning_wellFormed
  exact leaning_wellFormed.not_returns (by decide) hreturns

end Jungle.RedBlack
