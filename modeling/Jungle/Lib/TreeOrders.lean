import Jungle.Lib.OrderedTree
import Mathlib.Algebra.Group.Nat.Defs
import Mathlib.Data.List.Perm.Basic
import Mathlib.Order.Basic

/-!
# Orders of the nodes of a binary tree

The pre-order, the post-order and the level order of the values of a tree, next to the in-order of
`inorder`. Each of them lists every node once (`perm_preorder`, `perm_postorder`,
`perm_levelOrder`). In a tree whose values ascend strictly the pre-order is the in-order only if no
node has a left child (`preorder_eq_inorder_iff`).
-/

set_option autoImplicit false
set_option relaxedAutoImplicit false

namespace Jungle.Lib

open BinaryTree

variable {Value : Type*}

/-- A node before its left tree before its right tree. -/
def preorder : BinaryTree Value → List Value
  | nil => []
  | node v left right => v :: (preorder left ++ preorder right)

/-- The left tree before the right tree before the node. -/
def postorder : BinaryTree Value → List Value
  | nil => []
  | node v left right => postorder left ++ postorder right ++ [v]

/-- The values at a depth from left to right. -/
def level : ℕ → BinaryTree Value → List Value
  | _, nil => []
  | 0, node v _ _ => [v]
  | d + 1, node _ left right => level d left ++ level d right

/-- The values by depth and, within a depth, from left to right. -/
def levelOrder (t : BinaryTree Value) : List Value :=
  (List.range t.height).flatMap fun d ↦ level d t

/-- No node has a left child. -/
def NoLeftChild : BinaryTree Value → Prop
  | nil => True
  | node _ left right => left = nil ∧ NoLeftChild right

@[simp] theorem preorder_nil : preorder (nil : BinaryTree Value) = [] := rfl

@[simp] theorem preorder_node (v : Value) (left right : BinaryTree Value) :
    preorder (node v left right) = v :: (preorder left ++ preorder right) := rfl

@[simp] theorem postorder_nil : postorder (nil : BinaryTree Value) = [] := rfl

@[simp] theorem postorder_node (v : Value) (left right : BinaryTree Value) :
    postorder (node v left right) = postorder left ++ postorder right ++ [v] := rfl

@[simp] theorem level_nil (d : ℕ) : level d (nil : BinaryTree Value) = [] := by
  cases d <;> rfl

@[simp] theorem level_zero (v : Value) (left right : BinaryTree Value) :
    level 0 (node v left right) = [v] := rfl

@[simp] theorem level_succ (d : ℕ) (v : Value) (left right : BinaryTree Value) :
    level (d + 1) (node v left right) = level d left ++ level d right := rfl

theorem perm_preorder (t : BinaryTree Value) : (preorder t).Perm (inorder t) := by
  induction t with
  | nil => exact .refl []
  | node v left right ihLeft ihRight =>
    exact ((ihLeft.append ihRight).cons v).trans List.perm_middle.symm

theorem perm_postorder (t : BinaryTree Value) : (postorder t).Perm (inorder t) := by
  induction t with
  | nil => exact .refl []
  | node v left right ihLeft ihRight =>
    have hmoved : (postorder left ++ postorder right ++ [v]).Perm
        (postorder left ++ (v :: postorder right)) := by
      rw [List.append_assoc]
      exact (List.perm_append_singleton v _).append_left _
    exact hmoved.trans (ihLeft.append (ihRight.cons v))

/-! ### Levels -/

theorem level_eq_nil_iff {d : ℕ} {t : BinaryTree Value} : level d t = [] ↔ t.height ≤ d := by
  induction t generalizing d with
  | nil => simp
  | node v left right ihLeft ihRight =>
    cases d with
    | zero => simp
    | succ d =>
      rw [level_succ, List.append_eq_nil_iff, ihLeft, ihRight, height]
      omega

/-- A level has at most twice as many values as the level above. -/
theorem length_level_succ_le (d : ℕ) (t : BinaryTree Value) :
    (level (d + 1) t).length ≤ 2 * (level d t).length := by
  induction t generalizing d with
  | nil => simp
  | node v left right ihLeft ihRight =>
    cases d with
    | zero =>
      cases left <;> cases right <;> simp
    | succ d =>
      rw [level_succ, level_succ, List.length_append, List.length_append]
      have hleft := ihLeft d
      have hright := ihRight d
      omega

theorem length_level_le_pow (d : ℕ) (t : BinaryTree Value) : (level d t).length ≤ 2 ^ d := by
  induction d with
  | zero => cases t <;> simp
  | succ d ih =>
    have hdouble := length_level_succ_le d t
    rw [Nat.pow_succ]
    omega

/-- The levels below the tree are empty. -/
theorem flatMap_level_eq {n : ℕ} {t : BinaryTree Value} (h : t.height ≤ n) :
    ((List.range n).flatMap fun d ↦ level d t) = levelOrder t := by
  induction h with
  | refl => rfl
  | @step n hle ih =>
    rw [List.range_succ, List.flatMap_append, ih, List.flatMap_singleton,
      level_eq_nil_iff.mpr hle, List.append_nil]

theorem perm_levelOrder (t : BinaryTree Value) : (levelOrder t).Perm (inorder t) := by
  induction t with
  | nil => exact .refl []
  | node v left right ihLeft ihRight =>
    have hlevels : levelOrder (node v left right) = v ::
        (List.range (max left.height right.height)).flatMap fun d ↦ level d left ++ level d right := by
      rw [levelOrder, height, List.range_succ_eq_map, List.flatMap_cons, List.flatMap_map]
      rfl
    have happart := List.flatMap_append_perm (List.range (max left.height right.height))
      (fun d ↦ level d left) fun d ↦ level d right
    rw [flatMap_level_eq (Nat.le_max_left _ _), flatMap_level_eq (Nat.le_max_right _ _)] at happart
    rw [hlevels, inorder_node]
    exact ((happart.symm.trans (ihLeft.append ihRight)).cons v).trans List.perm_middle.symm

theorem level_sublist_levelOrder (d : ℕ) (t : BinaryTree Value) :
    (level d t).Sublist (levelOrder t) := by
  by_cases hd : d < t.height
  · exact List.sublist_flatten_of_mem (List.mem_map_of_mem (List.mem_range.mpr hd))
  · rw [level_eq_nil_iff.mpr (Nat.le_of_not_lt hd)]
    exact List.nil_sublist _

theorem mem_inorder_of_mem_level {d : ℕ} {t : BinaryTree Value} {v : Value} (h : v ∈ level d t) :
    v ∈ inorder t :=
  (perm_levelOrder t).mem_iff.mp ((level_sublist_levelOrder d t).subset h)

theorem length_level_le (d : ℕ) (t : BinaryTree Value) : (level d t).length ≤ t.numNodes := by
  rw [← length_inorder, ← (perm_levelOrder t).length_eq]
  exact (level_sublist_levelOrder d t).length_le

/-- In a tree with strictly ascending keys the pre-order of the keys is the in-order if and only if no
node has a left child. -/
theorem preorder_eq_inorder_iff {Key : Type*} [Preorder Key] {key : Value → Key}
    {t : BinaryTree Value} (h : OrderedBy (fun v w ↦ key v < key w) t) :
    (preorder t).map key = (inorder t).map key ↔ NoLeftChild t := by
  induction t with
  | nil => exact iff_of_true rfl trivial
  | node v left right _ ihRight =>
    obtain ⟨-, hright, hbelow, -⟩ := h
    rw [NoLeftChild, ← ihRight hright]
    by_cases hleft : left = nil
    · subst hleft
      simp
    · refine iff_of_false (fun heq ↦ ?_) fun hboth ↦ hleft hboth.1
      have hfirst := head?_inorder v hleft
      have hmem := List.mem_of_mem_head? hfirst
      have hhead := congrArg List.head? heq
      rw [preorder_node, List.map_cons, List.head?_cons, inorder_node, List.map_append,
        List.head?_append, List.head?_map, hfirst, Option.map_some, Option.some_or] at hhead
      exact (hbelow _ hmem).ne (Option.some.inj hhead).symm

end Jungle.Lib
